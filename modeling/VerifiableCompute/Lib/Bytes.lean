import Mathlib

/-! Byte strings of naturals and of machine words in both byte orders, and the
concatenation of 32-byte words that contract calls and typed hashes use. -/

namespace VerifiableCompute.Lib

open List BitVec

abbrev Byte := BitVec 8

/-- The `n` low bytes of a natural, most significant first. -/
def beBytes : ℕ → ℕ → List Byte
  | 0, _ => []
  | n + 1, x => BitVec.ofNat 8 (x / 256 ^ n) :: beBytes n x

def wordBytes (x : BitVec 256) : List Byte := beBytes 32 x.toNat

/-- The natural with these bytes, most significant first. -/
def beNat (bytes : List Byte) : ℕ := bytes.foldl (fun acc b => 256 * acc + b.toNat) 0

def encodeWords (ws : List (BitVec 256)) : List Byte := ws.flatMap wordBytes

def asciiBytes (s : String) : List Byte := s.toList.map fun c => BitVec.ofNat 8 c.toNat

@[simp] theorem beBytes_length (n x : ℕ) : (beBytes n x).length = n := by
  induction n with
  | zero => rfl
  | succ n ih => simp [beBytes, ih]

@[simp] theorem wordBytes_length (x : BitVec 256) : (wordBytes x).length = 32 := beBytes_length 32 _

@[simp] theorem encodeWords_length (ws : List (BitVec 256)) : (encodeWords ws).length = 32 * ws.length := by
  induction ws with
  | nil => rfl
  | cons w ws ih =>
    simp only [encodeWords, flatMap_cons, length_append, wordBytes_length, length_cons] at ih ⊢
    omega

theorem beBytes_mod (n x : ℕ) : beBytes n (x % 256 ^ n) = beBytes n x := by
  suffices ∀ m ≤ n, beBytes m (x % 256 ^ n) = beBytes m x from this n le_rfl
  intro m hm
  induction m with
  | zero => rfl
  | succ m ih =>
    have hdvd : (256 : ℕ) ^ n = 256 ^ m * (256 * 256 ^ (n - m - 1)) := by
      rw [← pow_succ', ← pow_add]
      congr 1
      omega
    have hhead : BitVec.ofNat 8 (x % 256 ^ n / 256 ^ m) = BitVec.ofNat 8 (x / 256 ^ m) := by
      apply eq_of_toNat_eq
      rw [hdvd, Nat.mod_mul_right_div_self]
      simp
    rw [beBytes, beBytes, hhead, ih (by omega)]

theorem beNat_beBytes (n x : ℕ) : beNat (beBytes n x) = x % 256 ^ n := by
  suffices h : ∀ acc, (beBytes n x).foldl (fun acc b => 256 * acc + b.toNat) acc = acc * 256 ^ n + x % 256 ^ n by
    simpa [beNat] using h 0
  induction n with
  | zero => simp [beBytes, Nat.mod_one]
  | succ n ih =>
    intro acc
    have hmod : x % (256 ^ n * 256) = x % 256 ^ n + 256 ^ n * (x / 256 ^ n % 256) := Nat.mod_mul
    have hbyte : (2 : ℕ) ^ 8 = 256 := rfl
    rw [beBytes, foldl_cons, ih, toNat_ofNat, hbyte, pow_succ, hmod]
    ring

theorem beNat_cons (b : Byte) (bytes : List Byte) :
    beNat (b :: bytes) = b.toNat * 256 ^ bytes.length + beNat bytes := by
  suffices h : ∀ acc, bytes.foldl (fun acc b => 256 * acc + b.toNat) acc = acc * 256 ^ bytes.length + beNat bytes by
    simpa [beNat] using h b.toNat
  induction bytes with
  | nil => simp [beNat]
  | cons c bytes ih =>
    intro acc
    have h0 := ih c.toNat
    simp only [beNat, foldl_cons, length_cons, Nat.mul_zero, Nat.zero_add] at h0 ⊢
    rw [ih (256 * acc + c.toNat), h0, pow_succ, beNat]
    ring

variable (bytes : List Byte)

theorem beNat_lt : beNat bytes < 256 ^ bytes.length := by
  induction bytes with
  | nil => simp [beNat]
  | cons b bytes ih =>
    have hb : b.toNat + 1 ≤ 256 := b.isLt
    have := Nat.mul_le_mul_right (256 ^ bytes.length) hb
    rw [beNat_cons, length_cons, pow_succ]
    nlinarith

/-- Writing out the number that bytes stand for gives them back. -/
theorem beBytes_beNat : beBytes bytes.length (beNat bytes) = bytes := by
  induction bytes with
  | nil => rfl
  | cons b bytes ih =>
    have hpos : 0 < 256 ^ bytes.length := by positivity
    have hlt := beNat_lt bytes
    have hdiv : beNat (b :: bytes) / 256 ^ bytes.length = b.toNat := by
      rw [beNat_cons, Nat.add_comm, Nat.add_mul_div_right _ _ hpos, Nat.div_eq_of_lt hlt, Nat.zero_add]
    have hmod : beNat (b :: bytes) % 256 ^ bytes.length = beNat bytes := by
      rw [beNat_cons, Nat.add_comm, Nat.add_mul_mod_self_right, Nat.mod_eq_of_lt hlt]
    rw [length_cons, beBytes, hdiv, ← beBytes_mod, hmod, ih, ofNat_toNat, setWidth_eq]

/-- The `n` low bytes of a natural, least significant first. -/
def leBytes (n x : ℕ) : List Byte := (beBytes n x).reverse

/-- The natural with these bytes, least significant first. -/
def leNat (bytes : List Byte) : ℕ := beNat bytes.reverse

@[simp] theorem leBytes_length (n x : ℕ) : (leBytes n x).length = n := by
  rw [leBytes, length_reverse, beBytes_length]

theorem leNat_leBytes (n x : ℕ) : leNat (leBytes n x) = x % 256 ^ n := by
  rw [leNat, leBytes, reverse_reverse, beNat_beBytes]

theorem leNat_lt : leNat bytes < 256 ^ bytes.length := by
  have := beNat_lt bytes.reverse
  rwa [length_reverse] at this

theorem leBytes_leNat : leBytes bytes.length (leNat bytes) = bytes := by
  have := beBytes_beNat bytes.reverse
  rw [length_reverse] at this
  rw [leBytes, leNat, this, reverse_reverse]

theorem beBytes_inj (n x y : ℕ) (h : beBytes n x = beBytes n y) : x % 256 ^ n = y % 256 ^ n := by
  induction n with
  | zero => simp [Nat.mod_one]
  | succ n ih =>
    rw [beBytes, beBytes, List.cons.injEq] at h
    have hhead := congrArg BitVec.toNat h.1
    simp only [toNat_ofNat] at hhead
    have hrest := ih h.2
    rw [pow_succ, Nat.mod_mul, Nat.mod_mul, hrest]
    norm_num at hhead
    rw [hhead]

theorem wordBytes_injective : Function.Injective wordBytes := by
  intro x y h
  have hmod := beBytes_inj 32 _ _ h
  have hx : x.toNat < 256 ^ 32 := x.isLt
  have hy : y.toNat < 256 ^ 32 := y.isLt
  rw [Nat.mod_eq_of_lt hx, Nat.mod_eq_of_lt hy] at hmod
  exact eq_of_toNat_eq hmod

theorem encodeWords_injective : Function.Injective encodeWords := by
  intro ws
  induction ws with
  | nil =>
    intro vs h
    have hlen := congrArg length h
    rw [encodeWords_length, encodeWords_length, length_nil] at hlen
    exact (eq_nil_of_length_eq_zero (by omega)).symm
  | cons w ws ih =>
    intro vs h
    rcases vs with _ | ⟨v, vs⟩
    · have := congrArg length h
      simp at this
    · simp only [encodeWords, flatMap_cons] at h
      obtain ⟨hw, hws⟩ := append_inj h (by simp)
      rw [wordBytes_injective hw, ih hws]

/-- Byte-wise lexicographic order on equally long encodings is numeric order. -/
theorem beBytes_lt_iff (n x y : ℕ) (hx : x < 256 ^ n) (hy : y < 256 ^ n) : beBytes n x < beBytes n y ↔ x < y := by
  induction n generalizing x y with
  | zero =>
    simp only [pow_zero, Nat.lt_one_iff] at hx hy
    simp [beBytes, hx, hy]
  | succ n ih =>
    have hpos : 0 < 256 ^ n := by positivity
    have hxd : x / 256 ^ n < 256 := Nat.div_lt_of_lt_mul (by rwa [pow_succ] at hx)
    have hyd : y / 256 ^ n < 256 := Nat.div_lt_of_lt_mul (by rwa [pow_succ] at hy)
    have hlt : BitVec.ofNat 8 (x / 256 ^ n) < BitVec.ofNat 8 (y / 256 ^ n) ↔ x / 256 ^ n < y / 256 ^ n := by
      rw [lt_def, toNat_ofNat, toNat_ofNat, Nat.mod_eq_of_lt hxd, Nat.mod_eq_of_lt hyd]
    have heq : BitVec.ofNat 8 (x / 256 ^ n) = BitVec.ofNat 8 (y / 256 ^ n) ↔ x / 256 ^ n = y / 256 ^ n := by
      rw [← toNat_inj, toNat_ofNat, toNat_ofNat, Nat.mod_eq_of_lt hxd, Nat.mod_eq_of_lt hyd]
    rw [beBytes, beBytes, cons_lt_cons_iff, hlt, heq, ← beBytes_mod n x, ← beBytes_mod n y,
      ih _ _ (Nat.mod_lt _ hpos) (Nat.mod_lt _ hpos)]
    have ex := Nat.div_add_mod x (256 ^ n)
    have ey := Nat.div_add_mod y (256 ^ n)
    have hxm := Nat.mod_lt x hpos
    have hym := Nat.mod_lt y hpos
    generalize x / 256 ^ n = a at *
    generalize y / 256 ^ n = b at *
    generalize x % 256 ^ n = c at *
    generalize y % 256 ^ n = d at *
    generalize 256 ^ n = m at *
    constructor
    · rintro (hab | ⟨rfl, hcd⟩)
      · nlinarith
      · omega
    · intro hxy
      rcases Nat.lt_trichotomy a b with hab | rfl | hab
      · exact .inl hab
      · exact .inr ⟨rfl, by omega⟩
      · nlinarith

end VerifiableCompute.Lib
