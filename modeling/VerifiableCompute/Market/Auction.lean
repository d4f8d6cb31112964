import VerifiableCompute.Market.Request

/-! The reverse Dutch auction of an offer. The price at a time and the first time of a price are computed by
different roundings; they are inverse to each other, except on a ramp of length zero. -/

namespace VerifiableCompute.Market

open Lib BitVec

/-- Division rounding up. -/
def ceilDiv (a b : U256) : Except Revert U256 := do
  require (b ≠ 0) .arithmeticPanic
  return if a = 0 then 0 else (a - 1) / b + 1

def toUint64 (x : U256) : Except Revert U64 := safeCast 64 .castOverflow x

namespace Offer

def timeAtPrice (o : Offer) (price : U256) : Except Revert U64 := do
  require (price ≤ o.maxPrice) .invalidRequest
  if price ≤ o.minPrice then return 0
  let rise ← checkedSub .arithmeticPanic o.maxPrice o.minPrice
  let run : U256 := o.rampUpPeriod.setWidth 256
  let level ← checkedSub .arithmeticPanic price o.minPrice
  let product ← checkedMul .arithmeticPanic level run
  let delta ← ceilDiv product rise
  checkedAdd .arithmeticPanic o.rampUpStart (← toUint64 delta)

/-- The product of the whole rise and the whole run is a word. -/
def Fits (o : Offer) : Prop := (o.maxPrice.toNat - o.minPrice.toNat) * o.rampUpPeriod.toNat < 2 ^ 256

instance (o : Offer) : Decidable o.Fits := Nat.decLt _ _

/-- What the auction promises until the lock deadline and after it. -/
structure InverseLaw (o : Offer) (lockDeadline : U64) : Prop where
  priced : ∀ t ≤ lockDeadline, ∃ price, o.priceAt t = .ok price ∧ o.minPrice ≤ price ∧ price ≤ o.maxPrice
  monotone : ∀ t t' price price', t ≤ t' → t' ≤ lockDeadline → o.priceAt t = .ok price → o.priceAt t' = .ok price' → price ≤ price'
  expired : ∀ t, lockDeadline < t → o.priceAt t = .ok 0
  inverse : ∀ price ≤ o.maxPrice, ∃ earliest, o.timeAtPrice price = .ok earliest ∧
    ∀ t, 1 ≤ t → t ≤ lockDeadline → ∃ current, o.priceAt t = .ok current ∧ (price ≤ current ↔ earliest ≤ t)

section Naturals

variable (o : Offer)

def rise : ℕ := o.maxPrice.toNat - o.minPrice.toNat

def run : ℕ := o.rampUpPeriod.toNat

def start : ℕ := o.rampUpStart.toNat

def lockEnd : ℕ := o.start + o.lockTimeout.toNat

/-- The curve that the price follows. -/
def curve (t : ℕ) : ℕ :=
  if t ≤ o.start then o.minPrice.toNat
  else if o.lockEnd < t then 0
  else if t ≤ o.start + o.run then o.minPrice.toNat + ramp o.rise o.run (t - o.start)
  else o.maxPrice.toNat

/-- The first time of a price above the minimum. -/
def reached (price : ℕ) : ℕ := o.start + rampInverse o.rise o.run (price - o.minPrice.toNat)

end Naturals

/-- An offer that passes its validation, with prices that can be computed. -/
structure Accepted (o : Offer) (lockDeadline : U64) : Prop where
  prices : o.minPrice.toNat ≤ o.maxPrice.toNat
  period : o.run ≤ o.lockTimeout.toNat
  deadline : o.lockDeadline = .ok lockDeadline
  deadline_toNat : lockDeadline.toNat = o.lockEnd
  fits : o.Fits

variable {o : Offer} {lockDeadline deadline : U64}

theorem accepted_of_validate (h : o.validate = .ok (lockDeadline, deadline)) (hfits : o.Fits) : o.Accepted lockDeadline := by
  simp only [validate, bind_ok_iff, require_ok_iff] at h
  obtain ⟨_, hprices, _, hperiod, _, -, l, hl, d, -, range, -, _, -, hres⟩ := h
  cases hres
  refine ⟨hprices, hperiod, hl, ?_, hfits⟩
  rw [checkedAdd_ok hl, toNat_setWidth, Nat.mod_eq_of_lt (by have := o.lockTimeout.isLt; omega)]
  rfl

namespace Accepted

section

variable (h : o.Accepted lockDeadline)

include h

theorem lockEnd_lt : o.lockEnd < 2 ^ 64 := h.deadline_toNat ▸ lockDeadline.isLt

theorem add_toNat {d : U64} (hd : d.toNat ≤ o.run) :
    checkedAdd Revert.arithmeticPanic o.rampUpStart d = .ok (o.rampUpStart + d) ∧ (o.rampUpStart + d).toNat = o.start + d.toNat := by
  have hsum : o.rampUpStart.toNat + d.toNat < 2 ^ 64 := by
    have hlt := h.lockEnd_lt
    have hperiod := h.period
    rw [lockEnd, start] at hlt
    omega
  exact ⟨checkedAdd_eq_ok hsum, toNat_add_of_lt hsum⟩

theorem checkedSub_prices :
    checkedSub Revert.arithmeticPanic o.maxPrice o.minPrice = .ok (o.maxPrice - o.minPrice) ∧ (o.maxPrice - o.minPrice).toNat = o.rise :=
  ⟨if_pos h.prices, toNat_sub_of_le h.prices⟩

theorem product_lt {x y : ℕ} (hx : x ≤ o.rise) (hy : y ≤ o.run) : x * y < 2 ^ 256 :=
  lt_of_le_of_lt (Nat.mul_le_mul hx hy) h.fits

end

theorem period_toNat {w : ℕ} (hw : 32 ≤ w) : (o.rampUpPeriod.setWidth w).toNat = o.run := by
  rw [toNat_setWidth]
  exact Nat.mod_eq_of_lt (lt_of_lt_of_le o.rampUpPeriod.isLt (Nat.pow_le_pow_right (by norm_num) hw))

theorem time_toNat (t : U64) : (t.setWidth 256).toNat = t.toNat := by
  rw [toNat_setWidth, Nat.mod_eq_of_lt (lt_of_lt_of_le t.isLt (by norm_num))]

theorem elapsed {t : U64} (hle : o.start ≤ t.toNat) : o.rampUpStart.setWidth 256 ≤ t.setWidth 256 ∧
    (t.setWidth 256 - o.rampUpStart.setWidth 256).toNat = t.toNat - o.start := by
  have hle : o.rampUpStart.setWidth 256 ≤ t.setWidth 256 := by rwa [BitVec.le_def, time_toNat, time_toNat]
  refine ⟨hle, ?_⟩
  rw [BitVec.toNat_sub_of_le hle, time_toNat, time_toNat]
  rfl

theorem rampEnd (h : o.Accepted lockDeadline) :
    checkedAdd Revert.arithmeticPanic o.rampUpStart (o.rampUpPeriod.setWidth 64) = .ok (o.rampUpStart + o.rampUpPeriod.setWidth 64) ∧
      (o.rampUpStart + o.rampUpPeriod.setWidth 64).toNat = o.start + o.run := by
  have hperiod : (o.rampUpPeriod.setWidth 64).toNat = o.run := period_toNat (by norm_num)
  have hadd := h.add_toNat hperiod.le
  rwa [hperiod] at hadd

variable {t : U64} {price : U256}

/-- On the ramp the price is the minimum and the part of the rise, rounded down. -/
theorem priceAt_ramp (h : o.Accepted lockDeadline) (hstart : o.start < t.toNat) (hend : t.toNat ≤ o.start + o.run) :
    ∃ price, o.priceAt t = .ok price ∧ price.toNat = o.minPrice.toNat + ramp o.rise o.run (t.toNat - o.start) := by
  obtain ⟨hadd, hrampEnd⟩ := h.rampEnd
  obtain ⟨hsub, hrise⟩ := h.checkedSub_prices
  have hafter : ¬t ≤ o.rampUpStart := not_le.mpr hstart
  have hbefore : ¬lockDeadline < t := by
    have hperiod := h.period
    rw [BitVec.lt_def, h.deadline_toNat, lockEnd]
    omega
  have hramp : t ≤ o.rampUpStart + o.rampUpPeriod.setWidth 64 := by rwa [BitVec.le_def, hrampEnd]
  obtain ⟨hle, hdelta⟩ := elapsed hstart.le
  have hsubTimes : checkedSub Revert.arithmeticPanic (t.setWidth 256) (o.rampUpStart.setWidth 256) =
      .ok (t.setWidth 256 - o.rampUpStart.setWidth 256) := if_pos hle
  have hproduct : (t.toNat - o.start) * o.rise < 2 ^ 256 := by
    rw [Nat.mul_comm]
    exact h.product_lt le_rfl (by omega)
  have hmul : checkedMul Revert.arithmeticPanic (t.setWidth 256 - o.rampUpStart.setWidth 256) (o.maxPrice - o.minPrice) =
      .ok ((t.setWidth 256 - o.rampUpStart.setWidth 256) * (o.maxPrice - o.minPrice)) := by
    rw [checkedMul, hdelta, hrise, if_pos hproduct]
  have hne : o.rampUpPeriod.setWidth 256 ≠ (0 : U256) := fun hzero => by
    have hrun : o.run = 0 := (period_toNat (by norm_num)).symm.trans (congrArg BitVec.toNat hzero)
    omega
  have hquotient : ((t.setWidth 256 - o.rampUpStart.setWidth 256) * (o.maxPrice - o.minPrice) / o.rampUpPeriod.setWidth 256).toNat =
      ramp o.rise o.run (t.toNat - o.start) := by
    rw [BitVec.toNat_udiv, BitVec.toNat_mul, hdelta, hrise, Nat.mod_eq_of_lt hproduct, period_toNat (by norm_num), ramp]
  have hsum : o.minPrice.toNat + ((t.setWidth 256 - o.rampUpStart.setWidth 256) * (o.maxPrice - o.minPrice) /
      o.rampUpPeriod.setWidth 256).toNat < 2 ^ 256 := by
    have hbound : ramp o.rise o.run (t.toNat - o.start) ≤ o.rise := ramp_le (by omega)
    have hprices := h.prices
    have hmax := o.maxPrice.isLt
    rw [hquotient]
    rw [rise] at hbound ⊢
    omega
  refine ⟨_, ?_, by rw [BitVec.toNat_add_of_lt hsum, hquotient]⟩
  unfold priceAt
  simp only [if_neg hafter, h.deadline, bind, Except.bind, if_neg hbefore, hadd, if_pos hramp, hsub, hsubTimes, hmul, require, if_pos hne]
  exact checkedAdd_eq_ok hsum

theorem priceAt_eq (h : o.Accepted lockDeadline) (t : U64) : ∃ price, o.priceAt t = .ok price ∧ price.toNat = o.curve t.toNat := by
  unfold curve
  split_ifs with hstart hlate hramp
  · exact ⟨o.minPrice, if_pos hstart, rfl⟩
  · have hafter : ¬t ≤ o.rampUpStart := hstart
    have hexpired : lockDeadline < t := by rwa [lt_def, h.deadline_toNat]
    refine ⟨0, ?_, rfl⟩
    simp only [priceAt, if_neg hafter, h.deadline, bind, Except.bind, if_pos hexpired, pure, Except.pure]
  · exact h.priceAt_ramp (Nat.lt_of_not_le hstart) hramp
  · obtain ⟨hadd, hrampEnd⟩ := h.rampEnd
    have hafter : ¬t ≤ o.rampUpStart := hstart
    have hbefore : ¬lockDeadline < t := by rwa [lt_def, h.deadline_toNat]
    have hflat : ¬t ≤ o.rampUpStart + o.rampUpPeriod.setWidth 64 := by rwa [le_def, hrampEnd]
    refine ⟨o.maxPrice, ?_, rfl⟩
    simp only [priceAt, if_neg hafter, h.deadline, bind, Except.bind, if_neg hbefore, hadd, if_neg hflat, pure, Except.pure]

/-- Below the minimum the time is zero; above it the inverse of the ramp is added to its start. -/
theorem timeAtPrice_low (hmax : price ≤ o.maxPrice) (hmin : price ≤ o.minPrice) : o.timeAtPrice price = .ok 0 := by
  simp only [timeAtPrice, require, if_pos hmax, bind, Except.bind, if_pos hmin, pure, Except.pure]

theorem ceilDiv_eq {a b : U256} (hb : b ≠ 0) : ∃ q, ceilDiv a b = .ok q ∧ q.toNat = a.toNat ⌈/⌉ b.toNat := by
  have hpos : 0 < b.toNat := Nat.pos_of_ne_zero fun hzero => hb (eq_of_toNat_eq hzero)
  have hok : ceilDiv a b = .ok (if a = 0 then 0 else (a - 1) / b + 1) := by
    simp only [ceilDiv, require, if_pos hb, bind, Except.bind, pure, Except.pure]
  by_cases ha : a = 0
  · refine ⟨0, by rw [hok, if_pos ha], ?_⟩
    rw [ha]
    exact (zero_ceilDiv b.toNat).symm
  have hsome : 1 ≤ a.toNat := Nat.pos_of_ne_zero fun hzero => ha (eq_of_toNat_eq hzero)
  have hpred : (a - 1).toNat = a.toNat - 1 := toNat_sub_of_le hsome
  have hquotient : ((a - 1) / b).toNat = (a.toNat - 1) / b.toNat := by rw [toNat_udiv, hpred]
  have hsucc : ((a - 1) / b).toNat + (1 : U256).toNat < 2 ^ 256 := by
    have hle : (a.toNat - 1) / b.toNat ≤ a.toNat - 1 := Nat.div_le_self _ _
    have hlt := a.isLt
    rw [hquotient]
    change (a.toNat - 1) / b.toNat + 1 < 2 ^ 256
    omega
  refine ⟨(a - 1) / b + 1, by rw [hok, if_neg ha], ?_⟩
  rw [toNat_add_of_lt hsucc, hquotient, Nat.ceilDiv_eq_add_pred_div]
  change (a.toNat - 1) / b.toNat + 1 = (a.toNat + b.toNat - 1) / b.toNat
  rw [← Nat.add_div_right _ hpos]
  congr 1
  omega

theorem timeAtPrice_high (h : o.Accepted lockDeadline) (hmax : price ≤ o.maxPrice) (hmin : ¬price ≤ o.minPrice) :
    ∃ earliest, o.timeAtPrice price = .ok earliest ∧ earliest.toNat = o.reached price.toNat := by
  obtain ⟨hsub, hrise⟩ := h.checkedSub_prices
  have habove : o.minPrice.toNat < price.toNat := Nat.lt_of_not_le hmin
  have hbelow : price.toNat ≤ o.maxPrice.toNat := hmax
  have hlevelLe : price.toNat - o.minPrice.toNat ≤ o.rise := Nat.sub_le_sub_right hbelow _
  have hrisePos : 0 < o.rise := by rw [rise]; omega
  have hminLe : o.minPrice ≤ price := habove.le
  have hlevel : (price - o.minPrice).toNat = price.toNat - o.minPrice.toNat := toNat_sub_of_le hminLe
  have hsubLevel : checkedSub Revert.arithmeticPanic price o.minPrice = .ok (price - o.minPrice) := if_pos hminLe
  have hproduct : (price - o.minPrice).toNat * (o.rampUpPeriod.setWidth 256).toNat < 2 ^ 256 := by
    rw [hlevel, period_toNat (by norm_num)]
    exact h.product_lt hlevelLe le_rfl
  have hmul : checkedMul Revert.arithmeticPanic (price - o.minPrice) (o.rampUpPeriod.setWidth 256) =
      .ok ((price - o.minPrice) * o.rampUpPeriod.setWidth 256) := if_pos hproduct
  have hne : o.maxPrice - o.minPrice ≠ 0 := fun hzero => by
    rw [hzero] at hrise
    exact hrisePos.ne hrise
  obtain ⟨q, hdiv, hq⟩ := ceilDiv_eq (a := (price - o.minPrice) * o.rampUpPeriod.setWidth 256) hne
  rw [toNat_mul, Nat.mod_eq_of_lt hproduct, hlevel, hrise, period_toNat (by norm_num)] at hq
  have hqRun : q.toNat ≤ o.run := hq ▸ rampInverse_le hrisePos hlevelLe
  have hrun : o.run < 2 ^ 32 := o.rampUpPeriod.isLt
  have hcast : toUint64 q = .ok (q.setWidth 64) := if_pos (by omega)
  have hq64 : (q.setWidth 64).toNat = q.toNat := by
    rw [toNat_setWidth, Nat.mod_eq_of_lt (by omega)]
  obtain ⟨hadd, htime⟩ := h.add_toNat (d := q.setWidth 64) (hq64 ▸ hqRun)
  refine ⟨o.rampUpStart + q.setWidth 64, ?_, by rw [htime, hq64, hq]; rfl⟩
  simp only [timeAtPrice, require, if_pos hmax, bind, Except.bind, if_neg hmin, hsub, hsubLevel, hmul, hdiv, hcast, hadd]

theorem curve_range (h : o.Accepted lockDeadline) {t : ℕ} (ht : t ≤ o.lockEnd) :
    o.minPrice.toNat ≤ o.curve t ∧ o.curve t ≤ o.maxPrice.toNat := by
  have hprices := h.prices
  unfold curve
  split_ifs with hstart hlate hramp
  · exact ⟨le_rfl, hprices⟩
  · omega
  · have hbound : ramp o.rise o.run (t - o.start) ≤ o.rise := ramp_le (by omega)
    rw [rise] at hbound ⊢
    omega
  · exact ⟨hprices, le_rfl⟩

theorem curve_mono (h : o.Accepted lockDeadline) {t t' : ℕ} (ht : t ≤ t') (hend : t' ≤ o.lockEnd) : o.curve t ≤ o.curve t' := by
  by_cases hstart : t ≤ o.start
  · have hmin : o.curve t = o.minPrice.toNat := if_pos hstart
    exact hmin ▸ (h.curve_range hend).1
  by_cases hramp : t' ≤ o.start + o.run
  · rw [curve, if_neg hstart, if_neg (by omega), if_pos (by omega), curve, if_neg (by omega), if_neg (by omega), if_pos hramp]
    exact Nat.add_le_add_left (ramp_mono (by omega)) _
  · have hmax : o.curve t' = o.maxPrice.toNat := by
      rw [curve, if_neg (by omega), if_neg (by omega), if_neg hramp]
    exact hmax ▸ (h.curve_range (by omega)).2

/-- On a ramp that takes time, the curve is at least the price from the time of the price on. -/
theorem le_curve_iff (hrun : 0 < o.run) {t price : ℕ} (ht : t ≤ o.lockEnd)
    (hmin : o.minPrice.toNat < price) (hmax : price ≤ o.maxPrice.toNat) : price ≤ o.curve t ↔ o.reached price ≤ t := by
  have hlevel : 0 < price - o.minPrice.toNat := by omega
  have hlevelLe : price - o.minPrice.toNat ≤ o.rise := Nat.sub_le_sub_right hmax _
  have hrise : 0 < o.rise := lt_of_lt_of_le hlevel hlevelLe
  unfold curve reached
  split_ifs with hstart hlate hramp
  · have hpos := rampInverse_pos hrise hrun hlevel
    omega
  · omega
  · have hadjoint : price - o.minPrice.toNat ≤ ramp o.rise o.run (t - o.start) ↔
        rampInverse o.rise o.run (price - o.minPrice.toNat) ≤ t - o.start := le_ramp_iff hrise hrun
    omega
  · have hle : rampInverse o.rise o.run (price - o.minPrice.toNat) ≤ o.run := rampInverse_le hrise hlevelLe
    omega

theorem reached_of_run_eq_zero (hrun : o.run = 0) (price : ℕ) : o.reached price = o.start := by
  rw [reached, rampInverse, hrun, Nat.mul_zero, zero_ceilDiv, Nat.add_zero]

variable (h : o.Accepted lockDeadline)

include h

theorem priceAt_ok (hprice : o.priceAt t = .ok price) : price.toNat = o.curve t.toNat := by
  obtain ⟨price', hprice', hcurve⟩ := h.priceAt_eq t
  rw [hprice] at hprice'
  cases hprice'
  exact hcurve

theorem until_deadline (ht : t ≤ lockDeadline) : t.toNat ≤ o.lockEnd :=
  h.deadline_toNat ▸ ht

/-- Where the curve is at least the price exactly from the time of the price on, so are the computed values. -/
theorem inverse_of_iff {earliest : U64} (htime : o.timeAtPrice price = .ok earliest)
    (hiff : ∀ t : ℕ, 1 ≤ t → t ≤ o.lockEnd → (price.toNat ≤ o.curve t ↔ earliest.toNat ≤ t)) :
    ∃ earliest, o.timeAtPrice price = .ok earliest ∧
      ∀ t, 1 ≤ t → t ≤ lockDeadline → ∃ current, o.priceAt t = .ok current ∧ (price ≤ current ↔ earliest ≤ t) := by
  refine ⟨earliest, htime, fun t hone hend => ?_⟩
  obtain ⟨current, hcurrent, hcurve⟩ := h.priceAt_eq t
  refine ⟨current, hcurrent, ?_⟩
  rw [le_def, le_def, hcurve]
  exact hiff t.toNat hone (h.until_deadline hend)

theorem inverseLaw (hcases : 0 < o.run ∨ o.minPrice = o.maxPrice ∨ o.rampUpStart = 0) : o.InverseLaw lockDeadline where
  priced t ht := by
    obtain ⟨price, hprice, hcurve⟩ := h.priceAt_eq t
    obtain ⟨hlow, hhigh⟩ := h.curve_range (h.until_deadline ht)
    exact ⟨price, hprice, by rwa [BitVec.le_def, hcurve], by rwa [BitVec.le_def, hcurve]⟩
  monotone t t' price price' hle hend hprice hprice' := by
    rw [BitVec.le_def, h.priceAt_ok hprice, h.priceAt_ok hprice']
    exact h.curve_mono hle (h.until_deadline hend)
  expired t ht := by
    obtain ⟨price, hprice, hcurve⟩ := h.priceAt_eq t
    have hlate : o.lockEnd < t.toNat := h.deadline_toNat ▸ ht
    have hzero : o.curve t.toNat = 0 := by
      rw [curve, if_neg (by rw [lockEnd] at hlate; omega), if_pos hlate]
    have hprice0 : price = 0 := BitVec.eq_of_toNat_eq (hcurve.trans hzero)
    rw [hprice, hprice0]
  inverse price hmax := by
    by_cases hmin : price ≤ o.minPrice
    · refine h.inverse_of_iff (timeAtPrice_low hmax hmin) fun t _ hend => ?_
      exact iff_of_true (le_trans hmin (h.curve_range hend).1) (Nat.zero_le t)
    obtain ⟨earliest, htime, hreached⟩ := h.timeAtPrice_high hmax hmin
    have habove : o.minPrice.toNat < price.toNat := Nat.lt_of_not_le hmin
    refine h.inverse_of_iff htime fun t hone hend => ?_
    rw [hreached]
    obtain hrun | hrun := Nat.eq_zero_or_pos o.run
    · obtain hpos | hflat | hstart := hcases
      · omega
      · exact absurd (hflat ▸ hmax) hmin
      · have hzero : o.start = 0 := congrArg BitVec.toNat hstart
        have hcurve : o.curve t = o.maxPrice.toNat := by
          rw [curve, if_neg (by omega), if_neg (by omega), if_neg (by omega)]
        rw [hcurve, reached_of_run_eq_zero hrun, hzero]
        exact iff_of_true hmax (Nat.zero_le t)
    · exact le_curve_iff hrun hend habove hmax

/-- A ramp of length zero that starts later than time zero: at its start the maximum has a time already, but the
price is still the minimum. -/
theorem not_inverseLaw (hrun : o.run = 0) (hprices : o.minPrice ≠ o.maxPrice) (hstart : o.rampUpStart ≠ 0) :
    ¬o.InverseLaw lockDeadline := by
  intro hlaw
  have hmin : ¬o.maxPrice ≤ o.minPrice := fun hle => hprices (BitVec.eq_of_toNat_eq (le_antisymm h.prices hle))
  obtain ⟨earliest, htime, hreached⟩ := h.timeAtPrice_high (BitVec.le_refl _) hmin
  have hearliest : earliest = o.rampUpStart := BitVec.eq_of_toNat_eq (hreached.trans (reached_of_run_eq_zero hrun _))
  obtain ⟨earliest', htime', hiff⟩ := hlaw.inverse o.maxPrice (BitVec.le_refl _)
  rw [htime] at htime'
  cases htime'
  have hone : 1 ≤ o.rampUpStart := Nat.pos_of_ne_zero fun hzero => hstart (BitVec.eq_of_toNat_eq hzero)
  have hend : o.rampUpStart ≤ lockDeadline := by
    rw [BitVec.le_def, h.deadline_toNat]
    exact Nat.le_add_right _ _
  obtain ⟨current, hcurrent, hle⟩ := hiff o.rampUpStart hone hend
  have hstartPrice : o.priceAt o.rampUpStart = .ok o.minPrice := if_pos (BitVec.le_refl _)
  rw [hstartPrice] at hcurrent
  cases hcurrent
  exact hmin (hle.mpr (hearliest ▸ BitVec.le_refl _))

end Accepted

/-- The auction keeps its promises exactly if its ramp takes time, or does not rise, or starts at time zero. -/
theorem inverseLaw_iff (h : o.validate = .ok (lockDeadline, deadline)) (hfits : o.Fits) :
    o.InverseLaw lockDeadline ↔ o.rampUpPeriod ≠ 0 ∨ o.minPrice = o.maxPrice ∨ o.rampUpStart = 0 := by
  have haccepted := accepted_of_validate h hfits
  have hrun : o.rampUpPeriod ≠ 0 ↔ 0 < o.run :=
    ⟨fun hne => Nat.pos_of_ne_zero fun hzero => hne (BitVec.eq_of_toNat_eq hzero), fun hpos hzero => hpos.ne (congrArg BitVec.toNat hzero).symm⟩
  rw [hrun]
  constructor
  · intro hlaw
    by_contra hnone
    obtain ⟨hperiod, hprices, hstart⟩ := not_or.mp hnone |>.imp id not_or.mp
    exact haccepted.not_inverseLaw (by omega) hprices hstart hlaw
  · exact haccepted.inverseLaw

def flatOffer : Offer where
  minPrice := 1
  maxPrice := 2
  rampUpStart := 100
  rampUpPeriod := 0
  lockTimeout := 500
  timeout := 500
  lockCollateral := 0

theorem inverseLaw_iff_flatOffer : flatOffer.InverseLaw 600 ↔
    flatOffer.rampUpPeriod ≠ 0 ∨ flatOffer.minPrice = flatOffer.maxPrice ∨ flatOffer.rampUpStart = 0 :=
  inverseLaw_iff (show flatOffer.validate = .ok (600, 600) from rfl) (by decide)

/-- At the start of a ramp of length zero the price is 1, and it is said to be 2. -/
theorem flatOffer_not_inverseLaw : flatOffer.validate = .ok (600, 600) ∧ flatOffer.Fits ∧ flatOffer.priceAt 100 = .ok 1 ∧
    flatOffer.timeAtPrice 2 = .ok 100 ∧ ¬flatOffer.InverseLaw 600 := by
  refine ⟨rfl, by decide, rfl, rfl, fun hlaw => ?_⟩
  obtain ⟨earliest, htime, hiff⟩ := hlaw.inverse 2 (by decide)
  obtain ⟨current, hcurrent, hle⟩ := hiff 100 (by decide) (by decide)
  have hearliest : earliest = 100 := (Except.ok.inj htime).symm
  have hprice : current = 1 := (Except.ok.inj hcurrent).symm
  rw [hearliest, hprice] at hle
  exact absurd (hle.mpr (BitVec.le_refl _)) (by decide)

end Offer

end VerifiableCompute.Market
