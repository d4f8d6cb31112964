import VerifiableCompute.Circuit.Memory
import VerifiableCompute.Lib.Bits

/-! Loads and stores. A load picks a half and a byte of the word that it reads, a store puts them into the word that
it replaces; both take the two lowest bits of the address as columns. No constraint ties these bits to the size of
the access, and none keeps the address out of the zero page. -/

namespace VerifiableCompute.Circuit

open Lib Rv32im DecodeArgument Nat

section

variable (addr : ByteAddr)

def shortAt (data : Word) : ℕ := if addr.toNat / 2 % 2 = 1 then highHalf data else lowHalf data

def byteAt (data : Word) : ℕ :=
  if addr.toNat % 2 = 1 then shortAt addr data / 0x100 else shortAt addr data % 0x100

theorem shortAt_lt (data : Word) : shortAt addr data < 0x10000 := by
  have hlow := lowHalf_lt data
  have hhigh := highHalf_lt data
  unfold shortAt
  split_ifs
  · exact hhigh
  · exact hlow

theorem byteAt_lt (data : Word) : byteAt addr data < 0x100 := by
  have hshort := shortAt_lt addr data
  unfold byteAt
  split_ifs <;> omega

theorem toNat_byteShift : (byteShift addr).toNat = 8 * (addr.toNat % 4) := by
  have hand : (addr &&& 3#32).toNat = addr.toNat % 4 := by
    rw [BitVec.toNat_and]
    exact and_two_pow_sub_one_eq_mod addr.toNat 2
  rw [byteShift, BitVec.toNat_mul, hand]
  change 8 * (addr.toNat % 4) % 2 ^ 32 = _
  omega

theorem toNat_shifted (data : Word) {n : ℕ} (hn : n ≤ 32) :
    ((data >>> byteShift addr) &&& BitVec.ofNat 32 (2 ^ n - 1)).toNat = data.toNat / 2 ^ (8 * (addr.toNat % 4)) % 2 ^ n := by
  have hpow : 2 ^ n ≤ 2 ^ 32 := Nat.pow_le_pow_right Nat.zero_lt_two hn
  have hmask : (2 ^ n - 1) % 2 ^ 32 = 2 ^ n - 1 := mod_eq_of_lt (lt_of_lt_of_le (Nat.sub_one_lt (Nat.two_pow_pos n).ne') hpow)
  rw [BitVec.toNat_and, BitVec.ushiftRight_eq', BitVec.toNat_ushiftRight, toNat_byteShift, BitVec.toNat_ofNat, hmask,
    and_two_pow_sub_one_eq_mod, shiftRight_eq_div_pow]

theorem place_cases : addr.toNat % 4 = 0 ∨ addr.toNat % 4 = 1 ∨ addr.toNat % 4 = 2 ∨ addr.toNat % 4 = 3 := by
  omega

theorem div_mod_byte (data : Word) : data.toNat / 2 ^ (8 * (addr.toNat % 4)) % 2 ^ 8 = byteAt addr data := by
  unfold byteAt shortAt lowHalf highHalf
  obtain h | h | h | h := place_cases addr
  · rw [h, if_neg (by omega), if_neg (by omega)]
    omega
  · rw [h, if_pos (by omega), if_neg (by omega)]
    omega
  · rw [h, if_neg (by omega), if_pos (by omega)]
    omega
  · rw [h, if_pos (by omega), if_pos (by omega)]
    have := data.isLt
    omega

end

theorem div_mod_short {addr : ByteAddr} (data : Word) (haddr : addr.toNat % 2 = 0) :
    data.toNat / 2 ^ (8 * (addr.toNat % 4)) % 2 ^ 16 = shortAt addr data := by
  have := data.isLt
  unfold shortAt lowHalf highHalf
  obtain h | h | h | h := place_cases addr
  · rw [h, if_neg (by omega)]
    omega
  · omega
  · rw [h, if_pos (by omega)]
    omega
  · omega

theorem toNat_extended {n : ℕ} (hn : n < 31) {val : Word} (hval : val.toNat < 2 ^ (n + 1)) :
    (if val &&& (1 : Word) <<< n ≠ 0 then val ||| BitVec.ofNat 32 (2 ^ 32 - 2 ^ (n + 1)) else val).toNat =
      val.toNat + val.toNat / 2 ^ n * (2 ^ 32 - 2 ^ (n + 1)) := by
  have hsucc : 2 ^ (n + 1) = 2 ^ n * 2 := pow_succ 2 n
  have hpos : 0 < 2 ^ n := Nat.two_pow_pos n
  have hfit : 2 ^ (n + 1) < 2 ^ 32 := Nat.pow_lt_pow_right Nat.one_lt_two (by omega)
  have hquot : val.toNat / 2 ^ n < 2 := by
    rw [Nat.div_lt_iff_lt_mul hpos]
    omega
  have hbit : (val &&& (1 : Word) <<< n ≠ 0) ↔ val.toNat / 2 ^ n = 1 := by
    rw [and_one_shiftLeft_ne_zero val n (by omega), ← BitVec.testBit_toNat, testBit_eq_decide_div_mod_eq, decide_eq_true_iff,
      mod_eq_of_lt hquot]
  obtain hzero | hone : val.toNat / 2 ^ n = 0 ∨ val.toNat / 2 ^ n = 1 := le_one_iff_eq_zero_or_eq_one.mp (le_of_lt_succ hquot)
  · rw [if_neg (by rw [hbit]; omega), hzero, Nat.zero_mul, Nat.add_zero]
  · have hfill : 2 ^ 32 - 2 ^ (n + 1) = 2 ^ (n + 1) * (2 ^ (31 - n) - 1) := by
      rw [Nat.mul_sub, Nat.mul_one, ← pow_add]
      congr 2
      omega
    rw [if_pos (hbit.mpr hone), hone, Nat.one_mul, BitVec.toNat_or, BitVec.toNat_ofNat, mod_eq_of_lt (by omega), hfill, Nat.or_comm,
      ← two_pow_add_eq_or_of_lt hval, Nat.add_comm]

section

variable (addr : ByteAddr)

theorem loadOut_lb (data : Word) : ∃ out, loadOut .lb addr data = some (some out) ∧
    out.toNat = byteAt addr data + byteAt addr data / 0x80 * 0xffffff00 := by
  have hshifted := toNat_shifted addr data (n := 8) (by norm_num)
  have hbyte := byteAt_lt addr data
  refine ⟨_, rfl, ?_⟩
  rw [div_mod_byte] at hshifted
  rw [← hshifted] at hbyte ⊢
  exact toNat_extended (n := 7) (by norm_num) hbyte

theorem loadOut_lbU (data : Word) : ∃ out, loadOut .lbU addr data = some (some out) ∧ out.toNat = byteAt addr data :=
  ⟨_, rfl, (toNat_shifted addr data (n := 8) (by norm_num)).trans (div_mod_byte addr data)⟩

theorem not_misaligned {n : ℕ} (hn : n ≤ 32) (h : 2 ^ n ∣ addr.toNat) : ¬addr &&& BitVec.ofNat 32 (2 ^ n - 1) ≠ 0 := by
  have hpow : 2 ^ n ≤ 2 ^ 32 := Nat.pow_le_pow_right Nat.zero_lt_two hn
  have hpos : 0 < 2 ^ n := Nat.two_pow_pos n
  rw [not_not, BitVec.toNat_eq, BitVec.toNat_and, BitVec.toNat_ofNat, Nat.mod_eq_of_lt (by omega), Nat.and_two_pow_sub_one_eq_mod]
  exact Nat.mod_eq_zero_of_dvd h

theorem loadOut_lh (data : Word) (haddr : 2 ∣ addr.toNat) : ∃ out, loadOut .lh addr data = some (some out) ∧
    out.toNat = shortAt addr data + shortAt addr data / 0x8000 * 0xffff0000 := by
  have hshifted := toNat_shifted addr data (n := 16) (by norm_num)
  have hshort := shortAt_lt addr data
  refine ⟨_, if_neg (not_misaligned addr (n := 1) (by norm_num) haddr), ?_⟩
  rw [div_mod_short data (mod_eq_zero_of_dvd haddr)] at hshifted
  rw [← hshifted] at hshort ⊢
  exact toNat_extended (n := 15) (by norm_num) hshort

theorem loadOut_lhU (data : Word) (haddr : 2 ∣ addr.toNat) : ∃ out, loadOut .lhU addr data = some (some out) ∧
    out.toNat = shortAt addr data :=
  ⟨_, if_neg (not_misaligned addr (n := 1) (by norm_num) haddr),
    (toNat_shifted addr data (n := 16) (by norm_num)).trans (div_mod_short data (mod_eq_zero_of_dvd haddr))⟩

theorem loadOut_lw (data : Word) (haddr : 4 ∣ addr.toNat) : loadOut .lw addr data = some (some data) :=
  if_neg (not_misaligned addr (n := 2) (by norm_num) haddr)

/-- The word below, at and above the place of the lowest bits that are put into it. -/
theorem toNat_spliced (data rs2 : Word) {n : ℕ} (hfit : 8 * (addr.toNat % 4) + n ≤ 32) :
    (spliced (BitVec.ofNat 32 (2 ^ n - 1)) addr data rs2).toNat =
      2 ^ (8 * (addr.toNat % 4)) * (2 ^ n * (data.toNat / 2 ^ (8 * (addr.toNat % 4) + n)) + rs2.toNat % 2 ^ n) +
        data.toNat % 2 ^ (8 * (addr.toNat % 4)) := by
  have hshift := toNat_byteShift addr
  generalize hs : 8 * (addr.toNat % 4) = s at hshift hfit ⊢
  have hpow : 2 ^ n ≤ 2 ^ 32 := Nat.pow_le_pow_right Nat.zero_lt_two (by omega)
  have hmask : (2 ^ n - 1) % 2 ^ 32 = 2 ^ n - 1 := mod_eq_of_lt (lt_of_lt_of_le (Nat.sub_one_lt (Nat.two_pow_pos n).ne') hpow)
  have hput (k : ℕ) (hk : k < 2 ^ n) : (k <<< s) % 2 ^ 32 = k <<< s := by
    apply mod_eq_of_lt
    rw [Nat.shiftLeft_eq]
    calc k * 2 ^ s < 2 ^ n * 2 ^ s := Nat.mul_lt_mul_of_pos_right hk (Nat.two_pow_pos s)
      _ = 2 ^ (s + n) := by rw [← pow_add, Nat.add_comm]
      _ ≤ 2 ^ 32 := Nat.pow_le_pow_right Nat.zero_lt_two hfit
  have hlow : data.toNat % 2 ^ s < 2 ^ s := mod_lt _ (Nat.two_pow_pos s)
  have hrs2 : rs2.toNat % 2 ^ n < 2 ^ n := mod_lt _ (Nat.two_pow_pos n)
  have hlhs : (spliced (BitVec.ofNat 32 (2 ^ n - 1)) addr data rs2).toNat =
      (data.toNat ^^^ data.toNat &&& (2 ^ n - 1) <<< s) ||| (rs2.toNat % 2 ^ n) <<< s := by
    rw [spliced, BitVec.toNat_or, BitVec.toNat_xor, BitVec.toNat_and, BitVec.shiftLeft_eq', BitVec.shiftLeft_eq', BitVec.toNat_shiftLeft,
      BitVec.toNat_shiftLeft, BitVec.toNat_and, BitVec.toNat_ofNat, hmask, and_two_pow_sub_one_eq_mod, hshift, hput _ hrs2,
      hput _ (Nat.sub_one_lt (Nat.two_pow_pos n).ne')]
  rw [hlhs]
  apply eq_of_testBit_eq
  intro j
  rw [testBit_or, testBit_xor, testBit_and, testBit_shiftLeft, testBit_shiftLeft, testBit_two_pow_sub_one,
    testBit_two_pow_mul_add _ hlow]
  by_cases hj : j < s
  · simp [hj, Nat.not_le.mpr hj]
  · rw [if_neg hj, testBit_two_pow_mul_add _ hrs2]
    by_cases hjn : j - s < n
    · simp [hjn, Nat.not_lt.mp hj]
    · have hindex : j - s - n + (s + n) = j := by omega
      simp [hjn, Nat.not_lt.mp hj, testBit_div_two_pow, hindex]

theorem storeOut_sb (data rs2 : Word) : ∃ out, storeOut .sb addr data rs2 = some (some out) ∧
    out.toNat = 2 ^ (8 * (addr.toNat % 4)) * (2 ^ 8 * (data.toNat / 2 ^ (8 * (addr.toNat % 4) + 8)) + rs2.toNat % 2 ^ 8) +
      data.toNat % 2 ^ (8 * (addr.toNat % 4)) :=
  ⟨_, rfl, toNat_spliced addr data rs2 (n := 8) (by omega)⟩

theorem storeOut_sh (data rs2 : Word) (haddr : 2 ∣ addr.toNat) : ∃ out, storeOut .sh addr data rs2 = some (some out) ∧
    out.toNat = 2 ^ (8 * (addr.toNat % 4)) * (2 ^ 16 * (data.toNat / 2 ^ (8 * (addr.toNat % 4) + 16)) + rs2.toNat % 2 ^ 16) +
      data.toNat % 2 ^ (8 * (addr.toNat % 4)) :=
  ⟨_, if_neg (not_misaligned addr (n := 1) (by norm_num) haddr), toNat_spliced addr data rs2 (n := 16) (by omega)⟩

theorem storeOut_sw (data rs2 : Word) (haddr : 4 ∣ addr.toNat) : storeOut .sw addr data rs2 = some (some rs2) :=
  if_neg (not_misaligned addr (n := 2) (by norm_num) haddr)

end

def accessSize : InsnKind → ℕ
  | .lb => 1
  | .lbU => 1
  | .sb => 1
  | .lh => 2
  | .lhU => 2
  | .sh => 2
  | _ => 4

def Decoded.addr (d : Decoded) (m : ℕ → Word) (mode : Mode) : ByteAddr := m (mode.regs + d.rs1) + d.imm

theorem DecodeArgument.Correct.exists_option {arg : DecodeArgument} {d : Decoded} (h : arg.Correct d) {n : ℕ} {opt : OneHot n}
    (hopt : opt.Satisfied) (hn : n < 1000) {major : ℕ} (hmajor : major < instKinds) (harg : arg.options = instKinds * opt.get + (major : ℕ)) :
    ∃ val < n, opt = .set n val ∧ instOptions d.kind = some (val * instKinds + major) := by
  obtain ⟨val, hval, rfl⟩ := hopt.exists_set (by omega)
  obtain ⟨options, hoptions, heq⟩ := h
  have hcast : ((val * instKinds + major : ℕ) : Fp) = (options : ℕ) := by
    rw [cast_add, cast_mul, mul_comm, ← OneHot.get_set hval, ← harg, heq]
    rfl
  have hlt := instOptions_lt hoptions
  have hsame : val * instKinds + major = options := natCast_inj_of_lt (by unfold instKinds at hmajor ⊢; omega) (by omega) hcast
  exact ⟨val, hval, rfl, hsame ▸ hoptions⟩

/-- The state of the processor before an instruction. -/
def CpuStateArgument.of (cycle : Fp) (pc : ByteAddr) (mode : Mode) (iCache : Fp) : CpuStateArgument :=
  ⟨cycle, (ValU32.of pc).low, (ValU32.of pc).high, mode.num, iCache⟩

theorem GetSign.Satisfied.sign_eq {x : GetSign} {n : ℕ} (hn : n < 0x10000) (h : x.Satisfied (n : Fp)) : x.sign = (n / 0x8000 : ℕ) := by
  have hhigh : highHalf (ofHalves 0 n) = n := highHalf_ofHalves (by norm_num) hn
  have hset := GetSign.set_satisfied (ofHalves 0 n)
  rw [hhigh] at hset
  have hquot : (ofHalves 0 n).toNat / 2 ^ 31 = n / 0x8000 := by
    unfold highHalf at hhigh
    omega
  rw [GetSign.unique h hset, ← hquot]
  rfl

theorem bytes_eq {short b0 b1 : Fp} {n : ℕ} (hn : n < 0x10000) (h0 : RegU8.verify b0) (h1 : RegU8.verify b1) (hshort : short = (n : ℕ))
    (h : short = b1 * 256 + b0) : b0 = (n % 0x100 : ℕ) ∧ b1 = (n / 0x100 : ℕ) := by
  have hsum : b0 + b1 * ((0x100 : ℕ) : Fp) = (n % 0x100 : ℕ) + (n / 0x100 : ℕ) * ((0x100 : ℕ) : Fp) := by
    rw [← cast_mul, ← cast_add, mod_add_div' n 0x100, ← hshort, h]
    push_cast
    ring
  exact limbs_unique h0 (below_natCast (mod_lt _ (by norm_num)) (by norm_num)) h1 (below_natCast (by omega) (by norm_num))
    (by norm_num) hsum

theorem cond_shortAt (addr : ByteAddr) (data : Word) :
    cond (AddressDecompose.set addr).low1 (ValU32.of data).high (ValU32.of data).low = (shortAt addr data : ℕ) := by
  rw [AddressDecompose.set, shortAt]
  obtain h | h : addr.toNat / 2 % 2 = 0 ∨ addr.toNat / 2 % 2 = 1 := by omega
  · rw [h, cast_zero, cond_zero, if_neg (by norm_num)]
    rfl
  · rw [h, cast_one, cond_one, if_pos rfl]
    rfl

theorem cond_byteAt (addr : ByteAddr) (data : Word) :
    cond (AddressDecompose.set addr).low0 ((shortAt addr data / 0x100 : ℕ) : Fp) ((shortAt addr data % 0x100 : ℕ) : Fp) =
      (byteAt addr data : ℕ) := by
  rw [AddressDecompose.set, byteAt]
  obtain h | h : addr.toNat % 2 = 0 ∨ addr.toNat % 2 = 1 := by omega
  · rw [h, cast_zero, cond_zero, if_neg (by norm_num)]
  · rw [h, cast_one, cond_one, if_pos rfl]

theorem ValU32.eq_of {val : ValU32} {out : Word} (low high : ℕ) (hlow : val.low = (low : ℕ)) (hhigh : val.high = (high : ℕ))
    (hout : out.toNat = low + high * 0x10000) (hlt : low < 0x10000) : val = .of out := by
  have hlowHalf : lowHalf out = low := by
    unfold lowHalf
    omega
  have hhighHalf : highHalf out = high := by
    unfold highHalf
    omega
  apply ValU32.ext
  · rw [hlow, ← hlowHalf]
    rfl
  · rw [hhigh, ← hhighHalf]
    rfl

structure InstLoadWitness where
  cycle : Word
  fetch : FetchWitness
  rs1 : PhysMemReadWitness
  rs2 : Word
  mem : PhysMemReadWitness
  rd : PhysMemWriteWitness
  imm : Word
  options : ℕ

structure InstLoadBlock where
  cycle : Reg
  opt : OneHot 5
  fetch : FetchBlock
  readRs1 : PhysMemReadBlock
  writeRd : PhysMemWriteBlock
  rs1 : SourceReg
  rs2 : Reg
  rd : DestReg
  imm : RegU32
  computeAddr : AddU32
  readAddr : AddressDecompose
  checkAddr : AddressVerify
  readMem : PhysMemReadBlock
  pickShort : Reg
  b0 : RegU8
  b1 : RegU8
  pickByte : Reg
  signBit : GetSign

namespace InstLoadBlock

def set (wit : InstLoadWitness) : InstLoadBlock :=
  let opts := wit.options / instKinds
  let addr := wit.rs1.value + wit.imm
  let valU16 := if (AddressDecompose.set addr).low1 = 1 then highHalf wit.mem.value else lowHalf wit.mem.value
  let valU8 := if (AddressDecompose.set addr).low0 = 1 then valU16 / 0x100 else valU16 % 0x100
  { cycle := wit.cycle.toNat
    opt := .set 5 opts
    fetch := .set wit.fetch
    readRs1 := .set wit.rs1
    writeRd := .set wit.rd
    rs1 := .set wit.rs1.wordAddr
    rs2 := wit.rs2.toNat
    rd := .set wit.rd.wordAddr
    imm := .set wit.imm
    computeAddr := .set wit.rs1.value wit.imm false
    readAddr := .set addr
    checkAddr := .set addr wit.fetch.mode
    readMem := .set wit.mem
    pickShort := valU16
    b0 := (valU16 % 0x100 : ℕ)
    b1 := (valU16 / 0x100 : ℕ)
    pickByte := valU8
    signBit := .set (if opts % 5 = 0 then BitVec.ofNat 32 (valU8 * 2 ^ 24)
      else if opts % 5 = 1 then BitVec.ofNat 32 (valU16 * 2 ^ 16) else 0) }

def getSignBitInput (x : InstLoadBlock) : Fp := x.opt.bits 0 * x.pickByte * 256 + x.opt.bits 1 * x.pickShort

structure verify (x : InstLoadBlock) : Prop where
  wordAddr : x.readAddr.wordAddr x.computeAddr.get = x.readMem.wordAddr
  pickShort : x.pickShort = cond x.readAddr.low1 x.readMem.data.high x.readMem.data.low
  bytes : x.pickShort = x.b1 * 256 + x.b0
  pickByte : x.pickByte = cond x.readAddr.low0 x.b1 x.b0
  low : x.writeRd.data.low = x.opt.bits 0 * (x.signBit.sign * 255 * 256 + x.pickByte) + x.opt.bits 1 * x.pickShort +
    x.opt.bits 2 * x.readMem.data.low + x.opt.bits 3 * x.pickByte + x.opt.bits 4 * x.pickShort
  high : x.writeRd.data.high = x.opt.bits 0 * x.signBit.sign * 65535 + x.opt.bits 1 * x.signBit.sign * 65535 +
    x.opt.bits 2 * x.readMem.data.high

structure Satisfied (x : InstLoadBlock) : Prop where
  opt : x.opt.Satisfied
  rs1 : x.rs1.verify x.readRs1.wordAddr x.fetch.mode
  rd : x.rd.Satisfied x.writeRd.wordAddr x.fetch.mode
  computeAddr : x.computeAddr.Satisfied x.readRs1.data.get x.imm.get
  readAddr : x.readAddr.Satisfied x.computeAddr.get
  checkAddr : x.checkAddr.Satisfied x.computeAddr.get x.fetch.mode
  b0 : RegU8.verify x.b0
  b1 : RegU8.verify x.b1
  signBit : x.signBit.Satisfied x.getSignBitInput
  verify : x.verify

def pulledState (x : InstLoadBlock) : CpuStateArgument :=
  ⟨x.cycle, x.fetch.pc.low, x.fetch.pc.high, x.fetch.mode, x.fetch.iCacheCycle⟩

def pushedState (x : InstLoadBlock) : CpuStateArgument :=
  ⟨x.cycle + 1, x.fetch.nextPc.low, x.fetch.nextPc.high, x.fetch.mode, x.fetch.iCacheCycle⟩

def pulledDecode (x : InstLoadBlock) : DecodeArgument where
  iCacheCycle := x.fetch.iCacheCycle
  pcLow := x.fetch.pc.low
  pcHigh := x.fetch.pc.high
  newPcLow := x.fetch.nextPc.low
  newPcHigh := x.fetch.nextPc.high
  rs1 := x.rs1.idx
  rs2 := x.rs2
  rd := x.rd.idx
  immLow := x.imm.low
  immHigh := x.imm.high
  options := instKinds * x.opt.get + 2

/-- What the arguments say about a block: the instruction is decoded, the mode is that of the processor, and the reads
take what memory holds. -/
structure Uses (x : InstLoadBlock) (m : ℕ → Word) (mode : Mode) (d : Decoded) : Prop where
  decode : x.pulledDecode.Correct d
  mode : x.fetch.mode = mode.num
  readRs1 : x.readRs1.pulled.Current m
  readMem : x.readMem.pulled.Current m

structure Right (x : InstLoadBlock) (m : ℕ → Word) (mode : Mode) (d : Decoded) : Prop where
  accessible : mode.accessible (d.addr m mode)
  aligned : accessSize d.kind ∣ (d.addr m mode).toNat
  rd : x.writeRd.wordAddr = (mode.dest d.rd : ℕ)
  out : ∃ out, loadOut d.kind (d.addr m mode) (m (waddr (d.addr m mode))) = some (some out) ∧ x.writeRd.data.get = .of out
  next : x.pushedState = .of (x.cycle + 1) d.nextPc mode x.fetch.iCacheCycle

/-- The loads in the order of their options. -/
def kindOf : ℕ → InsnKind
  | 0 => .lb
  | 1 => .lh
  | 2 => .lw
  | 3 => .lbU
  | _ => .lhU

theorem kindOf_of_options {kind : InsnKind} {val : ℕ} (hval : val < 5) (h : instOptions kind = some (loadOptions val)) :
    kind = kindOf val := by
  revert val
  cases kind <;> decide

variable {x : InstLoadBlock} {m : ℕ → Word} {mode : Mode} {d : Decoded}

theorem Uses.exists_kind (h : x.Uses m mode d) (hx : x.Satisfied) : ∃ val < 5, x.opt = .set 5 val ∧ d.kind = kindOf val := by
  obtain ⟨val, hval, hopt, hkind⟩ := h.decode.exists_option hx.opt (by norm_num) (by decide) rfl
  exact ⟨val, hval, hopt, kindOf_of_options hval hkind⟩

theorem Uses.rs1_eq (h : x.Uses m mode d) (hx : x.Satisfied) : x.readRs1.data.get = .of (m (mode.regs + d.rs1)) := by
  obtain ⟨options, -, harg⟩ := h.decode
  have hidx : x.rs1.idx = (d.rs1 : ℕ) := congrArg DecodeArgument.rs1 harg
  refine PhysMemReadBlock.data_eq h.readRs1 ?_ (DualReg.reg_lt mode d.rs1)
  rw [← hx.rs1, h.mode, regsBase_num, hidx, cast_add]

theorem Uses.imm_eq (h : x.Uses m mode d) : x.imm.get = .of d.imm := by
  obtain ⟨options, -, harg⟩ := h.decode
  exact ValU32.ext (congrArg immLow harg) (congrArg immHigh harg)

section

variable (h : x.Uses m mode d) (hx : x.Satisfied)

include h hx

theorem Uses.addr_eq : x.computeAddr.get = .of (d.addr m mode) := by
  have hadd := hx.computeAddr
  rw [h.rs1_eq hx, h.imm_eq] at hadd
  exact hadd.get_eq

theorem Uses.readAddr_eq : x.readAddr = .set (d.addr m mode) :=
  AddressDecompose.Satisfied.eq_set (h.addr_eq hx ▸ hx.readAddr)

theorem Uses.accessible_iff : mode.accessible (d.addr m mode) ↔ zeroPageEndAddr ≤ d.addr m mode := by
  have hcheck := hx.checkAddr
  rw [h.addr_eq hx, h.mode] at hcheck
  exact hcheck.accessible_iff

theorem Uses.data_eq : x.readMem.data.get = .of (m (waddr (d.addr m mode))) := by
  have hlt : waddr (d.addr m mode) < 2013265921 := by
    have := (d.addr m mode).isLt
    unfold waddr
    omega
  refine PhysMemReadBlock.data_eq h.readMem ?_ hlt
  rw [← hx.verify.wordAddr, h.addr_eq hx, h.readAddr_eq hx, AddressDecompose.wordAddr_set]

theorem Uses.pickShort_eq : x.pickShort = (shortAt (d.addr m mode) (m (waddr (d.addr m mode))) : ℕ) := by
  rw [← cond_shortAt, ← h.data_eq hx, ← h.readAddr_eq hx]
  exact hx.verify.pickShort

theorem Uses.pickByte_eq : x.pickByte = (byteAt (d.addr m mode) (m (waddr (d.addr m mode))) : ℕ) := by
  obtain ⟨hb0, hb1⟩ := bytes_eq (shortAt_lt _ _) hx.b0 hx.b1 (h.pickShort_eq hx) hx.verify.bytes
  rw [← cond_byteAt, ← hb0, ← hb1, ← h.readAddr_eq hx]
  exact hx.verify.pickByte

theorem Uses.out_eq (haligned : accessSize d.kind ∣ (d.addr m mode).toNat) :
    ∃ out, loadOut d.kind (d.addr m mode) (m (waddr (d.addr m mode))) = some (some out) ∧ x.writeRd.data.get = .of out := by
  obtain ⟨val, hval, hopt, hkind⟩ := h.exists_kind hx
  have hbyte := byteAt_lt (d.addr m mode) (m (waddr (d.addr m mode)))
  have hshort := shortAt_lt (d.addr m mode) (m (waddr (d.addr m mode)))
  have hpickByte := h.pickByte_eq hx
  have hpickShort := h.pickShort_eq hx
  have hdata := h.data_eq hx
  have hlow := hx.verify.low
  have hhigh := hx.verify.high
  have hsign := hx.signBit
  rw [getSignBitInput, hopt, hpickByte, hpickShort] at hsign
  rw [hopt, hpickByte, hpickShort] at hlow
  rw [hopt] at hhigh
  rw [hkind] at haligned ⊢
  generalize d.addr m mode = addr at *
  generalize m (waddr addr) = data at *
  obtain rfl | rfl | rfl | rfl | rfl : val = 0 ∨ val = 1 ∨ val = 2 ∨ val = 3 ∨ val = 4 := by omega
  · obtain ⟨out, hout, hnat⟩ := loadOut_lb addr data
    simp [OneHot.set] at hlow hhigh hsign
    have hbit := GetSign.Satisfied.sign_eq (n := byteAt addr data * 256) (by omega) (by push_cast; exact hsign)
    have hhalf : byteAt addr data * 256 / 0x8000 = byteAt addr data / 0x80 := by omega
    rw [hbit, hhalf] at hlow hhigh
    refine ⟨out, hout, ValU32.eq_of (byteAt addr data / 0x80 * 255 * 256 + byteAt addr data) (byteAt addr data / 0x80 * 65535)
      ?_ ?_ (by omega) (by omega)⟩
    · push_cast
      exact hlow
    · push_cast
      exact hhigh
  · obtain ⟨out, hout, hnat⟩ := loadOut_lh addr data haligned
    simp [OneHot.set] at hlow hhigh hsign
    rw [GetSign.Satisfied.sign_eq hshort hsign] at hhigh
    refine ⟨out, hout, ValU32.eq_of (shortAt addr data) (shortAt addr data / 0x8000 * 65535) hlow ?_ ?_ hshort⟩
    · push_cast
      exact hhigh
    · rw [hnat]
      omega
  · simp [OneHot.set] at hlow hhigh
    refine ⟨data, loadOut_lw addr data haligned, ?_⟩
    rw [← hdata]
    exact ValU32.ext hlow hhigh
  · obtain ⟨out, hout, hnat⟩ := loadOut_lbU addr data
    simp [OneHot.set] at hlow hhigh
    exact ⟨out, hout, ValU32.eq_of (byteAt addr data) 0 hlow (hhigh.trans cast_zero.symm) (by omega) (by omega)⟩
  · obtain ⟨out, hout, hnat⟩ := loadOut_lhU addr data haligned
    simp [OneHot.set] at hlow hhigh
    exact ⟨out, hout, ValU32.eq_of (shortAt addr data) 0 hlow (hhigh.trans cast_zero.symm) (by omega) hshort⟩

end

/-- A satisfying assignment is right exactly if the address is aligned and not in the zero page. -/
theorem right_iff (hx : x.Satisfied) (h : x.Uses m mode d) :
    x.Right m mode d ↔ zeroPageEndAddr ≤ d.addr m mode ∧ accessSize d.kind ∣ (d.addr m mode).toNat := by
  obtain ⟨options, -, harg⟩ := h.decode
  constructor
  · intro hright
    exact ⟨(h.accessible_iff hx).mp hright.accessible, hright.aligned⟩
  · rintro ⟨hpage, haligned⟩
    have hrd := hx.rd
    rw [h.mode] at hrd
    refine ⟨(h.accessible_iff hx).mpr hpage, haligned, ?_, h.out_eq hx haligned, ?_⟩
    · exact hrd.wordAddr_eq (congrArg DecodeArgument.rd harg)
    · have hlow : x.fetch.nextPc.low = (ValU32.of d.nextPc).low := congrArg DecodeArgument.newPcLow harg
      have hhigh : x.fetch.nextPc.high = (ValU32.of d.nextPc).high := congrArg DecodeArgument.newPcHigh harg
      rw [pushedState, CpuStateArgument.of, hlow, hhigh, h.mode]

end InstLoadBlock

structure InstStoreWitness where
  cycle : Word
  fetch : FetchWitness
  rs1 : PhysMemReadWitness
  rs2 : PhysMemReadWitness
  mem : PhysMemWriteWitness
  rd : Word
  imm : Word
  options : ℕ

structure InstStoreBlock where
  cycle : Reg
  opt : OneHot 3
  fetch : FetchBlock
  dr : DualReg
  rd : Reg
  imm : RegU32
  computeAddr : AddU32
  writeAddr : AddressDecompose
  checkAddr : AddressVerify
  writeMem : PhysMemWriteBlock
  pickShort : Reg
  psB0 : RegU8
  psB1 : RegU8
  pickByte : Reg
  lowB0 : RegU8
  lowB1 : RegU8
  newShort : Reg

namespace InstStoreBlock

def set (wit : InstStoreWitness) : InstStoreBlock :=
  let opts := wit.options / instKinds
  let addr := wit.rs1.value + wit.imm
  let valU16 := if (AddressDecompose.set addr).low1 = 1 then highHalf wit.mem.prevValue else lowHalf wit.mem.prevValue
  let valU8 := if (AddressDecompose.set addr).low0 = 1 then valU16 / 0x100 else valU16 % 0x100
  let rs2Low := (DualReg.set wit.rs1 wit.rs2).getRS2.low.val
  let rs2Byte := rs2Low % 0x100
  { cycle := wit.cycle.toNat
    opt := .set 3 opts
    fetch := .set wit.fetch
    dr := .set wit.rs1 wit.rs2
    rd := wit.rd.toNat
    imm := .set wit.imm
    computeAddr := .set wit.rs1.value wit.imm false
    writeAddr := .set addr
    checkAddr := .set addr wit.fetch.mode
    writeMem := .set wit.mem
    pickShort := valU16
    psB0 := (valU16 % 0x100 : ℕ)
    psB1 := (valU16 / 0x100 : ℕ)
    pickByte := valU8
    lowB0 := (rs2Low % 0x100 : ℕ)
    lowB1 := (rs2Low / 0x100 : ℕ)
    newShort := if opts = 0 ∧ (AddressDecompose.set addr).low0 = 1 then (rs2Byte * 0x100 + valU16 % 0x100 : ℕ)
      else if opts = 0 ∧ (AddressDecompose.set addr).low0 = 0 then (valU16 / 0x100 * 0x100 + rs2Byte : ℕ) else rs2Low }

structure verify (x : InstStoreBlock) : Prop where
  wordAddr : x.writeAddr.wordAddr x.computeAddr.get = x.writeMem.wordAddr
  pickShort : x.pickShort = cond x.writeAddr.low1 x.writeMem.prevData.high x.writeMem.prevData.low
  bytes : x.pickShort = x.psB1 * 256 + x.psB0
  pickByte : x.pickByte = cond x.writeAddr.low0 x.psB1 x.psB0
  lowBytes : x.dr.getRS2.low = x.lowB1 * 256 + x.lowB0
  newShort : x.newShort = x.opt.bits 0 * x.writeAddr.low0 * (x.lowB0 * 256 + x.psB0) +
    x.opt.bits 0 * (1 - x.writeAddr.low0) * (x.psB1 * 256 + x.lowB0) + (x.opt.bits 1 + x.opt.bits 2) * x.dr.getRS2.low
  low : x.writeMem.data.low = (x.opt.bits 0 + x.opt.bits 1) * x.writeAddr.low1 * x.writeMem.prevData.low +
    (x.opt.bits 0 + x.opt.bits 1) * (1 - x.writeAddr.low1) * x.newShort + x.opt.bits 2 * x.dr.getRS2.low
  high : x.writeMem.data.high = (x.opt.bits 0 + x.opt.bits 1) * x.writeAddr.low1 * x.newShort +
    (x.opt.bits 0 + x.opt.bits 1) * (1 - x.writeAddr.low1) * x.writeMem.prevData.high + x.opt.bits 2 * x.dr.getRS2.high

structure Satisfied (x : InstStoreBlock) : Prop where
  opt : x.opt.Satisfied
  dr : x.dr.Satisfied x.fetch.mode
  computeAddr : x.computeAddr.Satisfied x.dr.getRS1 x.imm.get
  writeAddr : x.writeAddr.Satisfied x.computeAddr.get
  checkAddr : x.checkAddr.Satisfied x.computeAddr.get x.fetch.mode
  psB0 : RegU8.verify x.psB0
  psB1 : RegU8.verify x.psB1
  lowB0 : RegU8.verify x.lowB0
  lowB1 : RegU8.verify x.lowB1
  verify : x.verify

def pulledState (x : InstStoreBlock) : CpuStateArgument :=
  ⟨x.cycle, x.fetch.pc.low, x.fetch.pc.high, x.fetch.mode, x.fetch.iCacheCycle⟩

def pushedState (x : InstStoreBlock) : CpuStateArgument :=
  ⟨x.cycle + 1, x.fetch.nextPc.low, x.fetch.nextPc.high, x.fetch.mode, x.fetch.iCacheCycle⟩

def pulledDecode (x : InstStoreBlock) : DecodeArgument where
  iCacheCycle := x.fetch.iCacheCycle
  pcLow := x.fetch.pc.low
  pcHigh := x.fetch.pc.high
  newPcLow := x.fetch.nextPc.low
  newPcHigh := x.fetch.nextPc.high
  rs1 := x.dr.rs1Idx
  rs2 := x.dr.rs2Idx
  rd := x.rd
  immLow := x.imm.low
  immHigh := x.imm.high
  options := instKinds * x.opt.get + 3

structure Uses (x : InstStoreBlock) (m : ℕ → Word) (mode : Mode) (d : Decoded) : Prop where
  decode : x.pulledDecode.Correct d
  mode : x.fetch.mode = mode.num
  readRs1 : x.dr.readRs1.pulled.Current m
  readRs2 : x.dr.readRs2.pulled.Current m
  writeMem : x.writeMem.pulled.Current m

structure Right (x : InstStoreBlock) (m : ℕ → Word) (mode : Mode) (d : Decoded) : Prop where
  accessible : mode.accessible (d.addr m mode)
  aligned : accessSize d.kind ∣ (d.addr m mode).toNat
  wordAddr : x.writeMem.wordAddr = (waddr (d.addr m mode) : ℕ)
  out : ∃ out, storeOut d.kind (d.addr m mode) (m (waddr (d.addr m mode))) (m (mode.regs + d.rs2)) = some (some out) ∧
    x.writeMem.data.get = .of out
  next : x.pushedState = .of (x.cycle + 1) d.nextPc mode x.fetch.iCacheCycle

/-- The stores in the order of their options. -/
def kindOf : ℕ → InsnKind
  | 0 => .sb
  | 1 => .sh
  | _ => .sw

theorem kindOf_of_options {kind : InsnKind} {val : ℕ} (hval : val < 3) (h : instOptions kind = some (storeOptions val)) :
    kind = kindOf val := by
  revert val
  cases kind <;> decide

variable {x : InstStoreBlock} {m : ℕ → Word} {mode : Mode} {d : Decoded}

theorem Uses.exists_kind (h : x.Uses m mode d) (hx : x.Satisfied) : ∃ val < 3, x.opt = .set 3 val ∧ d.kind = kindOf val := by
  obtain ⟨val, hval, hopt, hkind⟩ := h.decode.exists_option hx.opt (by norm_num) (by decide) rfl
  exact ⟨val, hval, hopt, kindOf_of_options hval hkind⟩

theorem Satisfied.dr_num (hx : x.Satisfied) (h : x.Uses m mode d) : x.dr.Satisfied mode.num := h.mode ▸ hx.dr

theorem Uses.rs1_eq (h : x.Uses m mode d) (hx : x.Satisfied) : x.dr.getRS1 = .of (m (mode.regs + d.rs1)) := by
  obtain ⟨options, -, harg⟩ := h.decode
  exact (hx.dr_num h).getRS1_eq h.readRs1 (congrArg rs1 harg)

theorem Uses.rs2_eq (h : x.Uses m mode d) (hx : x.Satisfied) : x.dr.getRS2 = .of (m (mode.regs + d.rs2)) := by
  obtain ⟨options, -, harg⟩ := h.decode
  exact (hx.dr_num h).getRS2_eq h.readRs1 h.readRs2 (congrArg rs1 harg) (congrArg rs2 harg)

theorem Uses.imm_eq (h : x.Uses m mode d) : x.imm.get = .of d.imm := by
  obtain ⟨options, -, harg⟩ := h.decode
  exact ValU32.ext (congrArg immLow harg) (congrArg immHigh harg)

section

variable (h : x.Uses m mode d) (hx : x.Satisfied)

include h hx

theorem Uses.addr_eq : x.computeAddr.get = .of (d.addr m mode) := by
  have hadd := hx.computeAddr
  rw [h.rs1_eq hx, h.imm_eq] at hadd
  exact hadd.get_eq

theorem Uses.writeAddr_eq : x.writeAddr = .set (d.addr m mode) :=
  AddressDecompose.Satisfied.eq_set (h.addr_eq hx ▸ hx.writeAddr)

theorem Uses.accessible_iff : mode.accessible (d.addr m mode) ↔ zeroPageEndAddr ≤ d.addr m mode := by
  have hcheck := hx.checkAddr
  rw [h.addr_eq hx, h.mode] at hcheck
  exact hcheck.accessible_iff

theorem Uses.wordAddr_eq : x.writeMem.wordAddr = (waddr (d.addr m mode) : ℕ) := by
  rw [← hx.verify.wordAddr, h.addr_eq hx, h.writeAddr_eq hx, AddressDecompose.wordAddr_set]

theorem Uses.data_eq : x.writeMem.prevData.get = .of (m (waddr (d.addr m mode))) := by
  have hlt : waddr (d.addr m mode) < 2013265921 := by
    have := (d.addr m mode).isLt
    unfold waddr
    omega
  exact PhysMemWriteBlock.prevData_eq h.writeMem (h.wordAddr_eq hx) hlt

end

/-- A half of a word with a byte replaced. -/
def newShortOf (addr : ByteAddr) (short rs2 : ℕ) : ℕ :=
  if addr.toNat % 2 = 1 then rs2 % 0x100 * 0x100 + short % 0x100 else short / 0x100 * 0x100 + rs2 % 0x100

theorem Uses.newShort_eq (h : x.Uses m mode d) (hx : x.Satisfied) (hopt : x.opt = .set 3 0) : x.newShort =
    (newShortOf (d.addr m mode) (shortAt (d.addr m mode) (m (waddr (d.addr m mode)))) (lowHalf (m (mode.regs + d.rs2))) : ℕ) := by
  have hpickShort : x.pickShort = (shortAt (d.addr m mode) (m (waddr (d.addr m mode))) : ℕ) := by
    rw [← cond_shortAt, ← h.data_eq hx, ← h.writeAddr_eq hx]
    exact hx.verify.pickShort
  have hlow : x.dr.getRS2.low = (lowHalf (m (mode.regs + d.rs2)) : ℕ) := congrArg ValU32.low (h.rs2_eq hx)
  obtain ⟨hps0, hps1⟩ := bytes_eq (shortAt_lt _ _) hx.psB0 hx.psB1 hpickShort hx.verify.bytes
  obtain ⟨hlow0, -⟩ := bytes_eq (lowHalf_lt _) hx.lowB0 hx.lowB1 hlow hx.verify.lowBytes
  have hshort := hx.verify.newShort
  rw [hopt, h.writeAddr_eq hx, hps0, hps1, hlow0] at hshort
  simp [OneHot.set] at hshort
  rw [hshort, newShortOf, AddressDecompose.set]
  obtain hbit | hbit : (d.addr m mode).toNat % 2 = 0 ∨ (d.addr m mode).toNat % 2 = 1 := by omega
  · rw [hbit, if_neg (by norm_num)]
    push_cast
    ring
  · rw [hbit, if_pos rfl]
    push_cast
    ring

theorem replaced_eq {val : ValU32} {addr : ByteAddr} {data out : Word} {short : ℕ} (hshort : short < 0x10000)
    (hlow : val.low = (AddressDecompose.set addr).low1 * (ValU32.of data).low + (1 - (AddressDecompose.set addr).low1) * (short : ℕ))
    (hhigh : val.high = (AddressDecompose.set addr).low1 * (short : ℕ) + (1 - (AddressDecompose.set addr).low1) * (ValU32.of data).high)
    (hout : out.toNat = if addr.toNat / 2 % 2 = 1 then lowHalf data + short * 0x10000 else short + highHalf data * 0x10000) :
    val = .of out := by
  have hdata := lowHalf_lt data
  rw [AddressDecompose.set] at hlow hhigh
  obtain h | h : addr.toNat / 2 % 2 = 0 ∨ addr.toNat / 2 % 2 = 1 := by omega
  · rw [h, Nat.cast_zero, zero_mul, zero_add, sub_zero, one_mul] at hlow hhigh
    rw [if_neg (by omega)] at hout
    exact ValU32.eq_of _ _ hlow hhigh hout hshort
  · rw [h, Nat.cast_one, one_mul, sub_self, zero_mul, add_zero] at hlow hhigh
    rw [if_pos h] at hout
    exact ValU32.eq_of _ _ hlow hhigh hout hdata

theorem newShortOf_lt (addr : ByteAddr) {short : ℕ} (hshort : short < 0x10000) (rs2 : ℕ) : newShortOf addr short rs2 < 0x10000 := by
  unfold newShortOf
  split_ifs <;> omega

theorem Uses.out_eq (h : x.Uses m mode d) (hx : x.Satisfied) (haligned : accessSize d.kind ∣ (d.addr m mode).toNat) :
    ∃ out, storeOut d.kind (d.addr m mode) (m (waddr (d.addr m mode))) (m (mode.regs + d.rs2)) = some (some out) ∧
      x.writeMem.data.get = .of out := by
  obtain ⟨val, hval, hopt, hkind⟩ := h.exists_kind hx
  have hbyte (h0 : val = 0) := h.newShort_eq hx (h0 ▸ hopt)
  have hshort := shortAt_lt (d.addr m mode) (m (waddr (d.addr m mode)))
  have hrs2 := h.rs2_eq hx
  have hrs2Low : x.dr.getRS2.low = (lowHalf (m (mode.regs + d.rs2)) : ℕ) := congrArg ValU32.low hrs2
  have hprev := h.data_eq hx
  have hprevLow : x.writeMem.prevData.low = _ := congrArg ValU32.low hprev
  have hprevHigh : x.writeMem.prevData.high = _ := congrArg ValU32.high hprev
  have hnew := hx.verify.newShort
  have hlow := hx.verify.low
  have hhigh := hx.verify.high
  rw [hopt, hrs2Low] at hnew
  rw [hopt, h.writeAddr_eq hx, hprevLow] at hlow
  rw [hopt, h.writeAddr_eq hx, hprevHigh] at hhigh
  rw [hkind] at haligned ⊢
  generalize d.addr m mode = addr at *
  generalize m (waddr addr) = data at *
  generalize m (mode.regs + d.rs2) = rs2 at *
  have hdata := data.isLt
  obtain rfl | rfl | rfl : val = 0 ∨ val = 1 ∨ val = 2 := by omega
  · obtain ⟨out, hout, hnat⟩ := storeOut_sb addr data rs2
    simp [OneHot.set, hbyte rfl] at hlow hhigh
    refine ⟨out, hout, replaced_eq (newShortOf_lt addr hshort _) hlow hhigh ?_⟩
    unfold newShortOf shortAt lowHalf highHalf
    obtain h | h | h | h := place_cases addr
    all_goals
      rw [h] at hnat
      split_ifs <;> omega
  · obtain ⟨out, hout, hnat⟩ := storeOut_sh addr data rs2 haligned
    simp [OneHot.set] at hnew hlow hhigh
    rw [hnew] at hlow hhigh
    refine ⟨out, hout, replaced_eq (lowHalf_lt rs2) hlow hhigh ?_⟩
    have heven := mod_eq_zero_of_dvd haligned
    unfold lowHalf highHalf
    obtain h | h | h | h := place_cases addr
    all_goals
      rw [h] at hnat
      change addr.toNat % 2 = 0 at heven
      split_ifs <;> omega
  · simp [OneHot.set] at hlow hhigh
    refine ⟨rs2, storeOut_sw addr data rs2 haligned, ?_⟩
    rw [← hrs2]
    exact ValU32.ext hlow hhigh

/-- A satisfying assignment is right exactly if the address is aligned and not in the zero page. -/
theorem right_iff (hx : x.Satisfied) (h : x.Uses m mode d) :
    x.Right m mode d ↔ zeroPageEndAddr ≤ d.addr m mode ∧ accessSize d.kind ∣ (d.addr m mode).toNat := by
  obtain ⟨options, -, harg⟩ := h.decode
  constructor
  · intro hright
    exact ⟨(h.accessible_iff hx).mp hright.accessible, hright.aligned⟩
  · rintro ⟨hpage, haligned⟩
    refine ⟨(h.accessible_iff hx).mpr hpage, haligned, h.wordAddr_eq hx, h.out_eq hx haligned, ?_⟩
    have hlow : x.fetch.nextPc.low = (ValU32.of d.nextPc).low := congrArg newPcLow harg
    have hhigh : x.fetch.nextPc.high = (ValU32.of d.nextPc).high := congrArg newPcHigh harg
    rw [pushedState, CpuStateArgument.of, hlow, hhigh, h.mode]

end InstStoreBlock

/-- A memory whose fifth user register holds an address. -/
def memoryAt (addr : Word) : ℕ → Word := fun n => if n = 0x3fffc025 then addr else 0x12345678

/-- An instruction on the fifth register. -/
def decodedAt (kind : InsnKind) : Decoded := ⟨0x20000, false, kind, 5, 6, 10, 0⟩

/-- The columns that load a word at an address of user memory. -/
def wordLoad (addr : Word) : InstLoadBlock :=
  .set ⟨1000, ⟨0, 1, 900, 0x20000, 0x20004⟩, ⟨0x3fffc025, 10, addr⟩, 6, ⟨addr >>> 2, 10, 0x12345678⟩,
    ⟨0x3fffc02a, 10, 0, 0x12345678⟩, 0, loadOptions 2⟩

def wordStore (addr : Word) : InstStoreBlock :=
  .set ⟨1000, ⟨0, 1, 900, 0x20000, 0x20004⟩, ⟨0x3fffc025, 10, addr⟩, ⟨0x3fffc026, 10, 0x12345678⟩,
    ⟨addr >>> 2, 10, 0x12345678, 0x12345678⟩, 10, 0, storeOptions 2⟩

/-- An aligned address, a misaligned one and one of the zero page. -/
def IsSample (addr : Word) : Prop := addr = 0x10000 ∨ addr = 0x10002 ∨ addr = 0x100

set_option maxRecDepth 100000 in
theorem wordLoad_satisfied {addr : Word} (haddr : IsSample addr) : (wordLoad addr).Satisfied := by
  obtain rfl | rfl | rfl := haddr
  all_goals
    refine ⟨OneHot.set_satisfied (by decide), by with_unfolding_all decide, ⟨IsZero.satisfied_iff.mpr rfl, by with_unfolding_all decide⟩,
      AddU32.set_satisfied _ 0 false, ⟨?_, ?_, ?_, by with_unfolding_all decide⟩, ⟨?_, by with_unfolding_all decide⟩, ?_, ?_, ⟨?_, ?_, by with_unfolding_all decide⟩, ?_⟩
    · exact below_natCast (by decide) (by norm_num)
    · exact isBit_natCast (by decide)
    · exact isBit_natCast (by decide)
    · exact below_natCast (by decide) (by norm_num)
    · exact below_natCast (by decide) (by norm_num)
    · exact below_natCast (by decide) (by norm_num)
    · exact isBit_natCast (by decide)
    · exact below_natCast (by decide) (by norm_num)
    · exact ⟨by decide, by decide, by decide, by decide, by decide, by decide⟩

theorem wordLoad_uses {addr : Word} (haddr : IsSample addr) : (wordLoad addr).Uses (memoryAt addr) .user (decodedAt .lw) := by
  obtain rfl | rfl | rfl := haddr
  all_goals exact ⟨⟨loadOptions 2, rfl, by decide⟩, cast_zero, by decide, by decide⟩

set_option maxRecDepth 100000 in
theorem wordStore_satisfied {addr : Word} (haddr : IsSample addr) : (wordStore addr).Satisfied := by
  obtain rfl | rfl | rfl := haddr
  all_goals
    refine ⟨OneHot.set_satisfied (by decide), ⟨isBit_iff.mpr (.inl (by with_unfolding_all decide)), by with_unfolding_all decide, by with_unfolding_all decide,
      by with_unfolding_all decide, by with_unfolding_all decide, by with_unfolding_all decide⟩, AddU32.set_satisfied _ 0 false, ⟨?_, ?_, ?_, by with_unfolding_all decide⟩,
      ⟨?_, by with_unfolding_all decide⟩, ?_, ?_, ?_, ?_, ?_⟩
    · exact below_natCast (by decide) (by norm_num)
    · exact isBit_natCast (by decide)
    · exact isBit_natCast (by decide)
    · exact below_natCast (by decide) (by norm_num)
    · exact below_natCast (by decide) (by norm_num)
    · exact below_natCast (by decide) (by norm_num)
    · exact below_natCast (by decide) (by norm_num)
    · exact below_natCast (by decide) (by norm_num)
    · exact ⟨by decide, by decide, by decide, by decide, by decide, by decide,
        by decide, by decide⟩

theorem wordStore_uses {addr : Word} (haddr : IsSample addr) : (wordStore addr).Uses (memoryAt addr) .user (decodedAt .sw) := by
  obtain rfl | rfl | rfl := haddr
  all_goals exact ⟨⟨storeOptions 2, rfl, by decide⟩, cast_zero, by decide, by decide, by decide⟩

/-- A satisfying assignment for a load or a store is right exactly if the address is aligned and not in the zero page. -/
theorem loads_and_stores (x : InstLoadBlock) (y : InstStoreBlock) (m : ℕ → Word) (mode : Mode) (d : Decoded) :
    (x.Satisfied → x.Uses m mode d →
      (x.Right m mode d ↔ zeroPageEndAddr ≤ d.addr m mode ∧ accessSize d.kind ∣ (d.addr m mode).toNat)) ∧
    (y.Satisfied → y.Uses m mode d →
      (y.Right m mode d ↔ zeroPageEndAddr ≤ d.addr m mode ∧ accessSize d.kind ∣ (d.addr m mode).toNat)) :=
  ⟨fun hx h => InstLoadBlock.right_iff hx h, fun hy h => InstStoreBlock.right_iff hy h⟩

/-- At an aligned address the word that is loaded is right, and so is the word that is stored. -/
theorem loads_and_stores_aligned :
    (wordLoad 0x10000).Right (memoryAt 0x10000) .user (decodedAt .lw) ∧ (wordStore 0x10000).Right (memoryAt 0x10000) .user (decodedAt .sw) :=
  ⟨((loads_and_stores _ (wordStore 0x10000) _ _ _).1 (wordLoad_satisfied (.inl rfl)) (wordLoad_uses (.inl rfl))).mpr
      ⟨by decide, by decide⟩,
    ((loads_and_stores (wordLoad 0x10000) _ _ _ _).2 (wordStore_satisfied (.inl rfl)) (wordStore_uses (.inl rfl))).mpr
      ⟨by decide, by decide⟩⟩

/-- A word is loaded from and stored at `0x10002`, and at `0x100` of the zero page. -/
theorem forged_accesses :
    ((wordLoad 0x10002).Satisfied ∧ (wordLoad 0x10002).Uses (memoryAt 0x10002) .user (decodedAt .lw) ∧
      ¬(wordLoad 0x10002).Right (memoryAt 0x10002) .user (decodedAt .lw)) ∧
    ((wordLoad 0x100).Satisfied ∧ (wordLoad 0x100).Uses (memoryAt 0x100) .user (decodedAt .lw) ∧
      ¬(wordLoad 0x100).Right (memoryAt 0x100) .user (decodedAt .lw)) ∧
    ((wordStore 0x10002).Satisfied ∧ (wordStore 0x10002).Uses (memoryAt 0x10002) .user (decodedAt .sw) ∧
      ¬(wordStore 0x10002).Right (memoryAt 0x10002) .user (decodedAt .sw)) ∧
    ((wordStore 0x100).Satisfied ∧ (wordStore 0x100).Uses (memoryAt 0x100) .user (decodedAt .sw) ∧
      ¬(wordStore 0x100).Right (memoryAt 0x100) .user (decodedAt .sw)) := by
  refine ⟨⟨wordLoad_satisfied (.inr (.inl rfl)), wordLoad_uses (.inr (.inl rfl)), ?_⟩,
    ⟨wordLoad_satisfied (.inr (.inr rfl)), wordLoad_uses (.inr (.inr rfl)), ?_⟩,
    ⟨wordStore_satisfied (.inr (.inl rfl)), wordStore_uses (.inr (.inl rfl)), ?_⟩,
    ⟨wordStore_satisfied (.inr (.inr rfl)), wordStore_uses (.inr (.inr rfl)), ?_⟩⟩
  · exact fun h => absurd h.aligned (by decide)
  · exact fun h => absurd h.accessible (by decide)
  · exact fun h => absurd h.aligned (by decide)
  · exact fun h => absurd h.accessible (by decide)

end VerifiableCompute.Circuit
