import VerifiableCompute.Broker.Preflight
import VerifiableCompute.Broker.Types
import VerifiableCompute.Market.Auction

/-! The pricing of orders. A broker wants a price per million cycles and divides by the cycles, rounding down; the
time of a lock is computed from the price of all cycles, rounding up; and the cycles that an order may have are
computed from its price before they are known. -/

namespace VerifiableCompute.Broker

open Lib Market BitVec Offer Offer.Accepted

/-- Why an order is not priced: the arithmetic or an assertion aborts, or the offer has no time for a price. -/
inductive PricingError
  | arithmeticPanic
  | divisionByZero
  | assertion
  | priceExceedsMax
  | deltaConversion
  deriving DecidableEq

def ONE_MILLION : U256 := 1000000

/-! ### Prices of an offer -/

/-- The price rises linearly over the ramp-up period, stays at its maximum until the lock deadline and is zero
afterwards. Words of 256 bits wrap around. -/
def priceAtTime (minPrice maxPrice : U256) (rampUpStart : U64) (rampUpPeriod lockTimeout : U32) (timestamp : U64) :
    Except PricingError U256 :=
  if timestamp ≤ rampUpStart then .ok minPrice
  else do
    let lockDeadline ← checkedAdd .arithmeticPanic rampUpStart (lockTimeout.setWidth 64)
    if lockDeadline < timestamp then return 0
    let rampUpEnd ← checkedAdd .arithmeticPanic rampUpStart (rampUpPeriod.setWidth 64)
    if timestamp ≤ rampUpEnd then
      if rampUpPeriod = 0 then return minPrice
      let rise := maxPrice - minPrice
      let run : U256 := rampUpPeriod.setWidth 256
      let delta : U256 := (timestamp - rampUpStart).setWidth 256
      return minPrice + delta * rise / run
    else return maxPrice

def priceAt (o : Offer) (timestamp : U64) : Except PricingError U256 :=
  priceAtTime o.minPrice o.maxPrice o.rampUpStart o.rampUpPeriod o.lockTimeout timestamp

def timeAtPrice (o : Offer) (price : U256) : Except PricingError U64 := do
  require (price ≤ o.maxPrice) .priceExceedsMax
  if price ≤ o.minPrice then return 0
  let rise := o.maxPrice - o.minPrice
  let run : U256 := o.rampUpPeriod.setWidth 256
  let delta ← safeCast 64 .deltaConversion (divCeil ((price - o.minPrice) * run) rise)
  checkedAdd .arithmeticPanic o.rampUpStart delta

def lockExpiresAt (o : Offer) : Except PricingError U64 :=
  checkedAdd .arithmeticPanic o.rampUpStart (o.lockTimeout.setWidth 64)

def expiresAt (o : Offer) : Except PricingError U64 :=
  checkedAdd .arithmeticPanic o.rampUpStart (o.timeout.setWidth 64)

def FRACTION_STAKE_NUMERATOR : U256 := 1

def FRACTION_STAKE_DENOMINATOR : U256 := 2

/-- What the prover gets who fills the order of another. The product is never out of range. -/
def collateralRewardIfLockedAndNotFulfilled (o : Offer) : U256 :=
  o.lockCollateral * FRACTION_STAKE_NUMERATOR / FRACTION_STAKE_DENOMINATOR

/-! ### The outcome for the cycles of an order -/

/-- The price that is too low, and the configured one. -/
inductive SkipReason
  | maxPrice (maxPrice configMinMcyclePrice : U256)
  | slashedCollateral (mcyclePrice configMinMcyclePrice : U256)
  deriving DecidableEq

structure LockOutcome where
  totalCycles : U64
  targetTimestampSecs : U64
  expirySecs : U64
  targetMcyclePrice : U256
  maxMcyclePrice : U256
  configMinMcyclePrice : U256
  currentMcyclePrice : U256
  deriving DecidableEq

structure ProveAfterLockExpireOutcome where
  totalCycles : U64
  lockExpireTimestampSecs : U64
  expirySecs : U64
  mcyclePrice : U256
  configMinMcyclePrice : U256
  deriving DecidableEq

inductive OrderPricingOutcome
  | lock (outcome : LockOutcome)
  | proveAfterLockExpire (outcome : ProveAfterLockExpireOutcome)
  | skip (reason : SkipReason)
  deriving DecidableEq

/-- What a price leaves for a million of the cycles. -/
def mcyclePrice (price orderGasCost : U256) (totalCycles : U64) : U256 :=
  saturatingMul (saturatingSub price orderGasCost) ONE_MILLION / totalCycles.setWidth 256

def targetMinPrice (configMinMcyclePrice orderGasCost : U256) (totalCycles : U64) : U256 :=
  divCeil (saturatingMul configMinMcyclePrice (totalCycles.setWidth 256)) ONE_MILLION + orderGasCost

def evaluateLockableOrder (configMinMcyclePrice : U256) (now : U64) (o : Offer) (totalCycles : U64) (orderGasCost : U256) :
    Except PricingError OrderPricingOutcome := do
  require (totalCycles ≠ 0) .divisionByZero
  let mcyclePriceMin := mcyclePrice o.minPrice orderGasCost totalCycles
  let mcyclePriceMax := mcyclePrice o.maxPrice orderGasCost totalCycles
  if mcyclePriceMax < configMinMcyclePrice then return .skip (.maxPrice o.maxPrice configMinMcyclePrice)
  let currentMcyclePrice ← priceAt o now
  let (targetMcyclePrice, targetTimestampSecs) ←
    if configMinMcyclePrice ≤ mcyclePriceMin then .ok (mcyclePriceMin, 0)
    else
      let target := targetMinPrice configMinMcyclePrice orderGasCost totalCycles
      (timeAtPrice o target).map fun timestamp => (target, timestamp)
  let expirySecs ← lockExpiresAt o
  return .lock {
    totalCycles := totalCycles
    targetTimestampSecs := targetTimestampSecs
    expirySecs := expirySecs
    targetMcyclePrice := targetMcyclePrice
    maxMcyclePrice := mcyclePriceMax
    configMinMcyclePrice := configMinMcyclePrice
    currentMcyclePrice := currentMcyclePrice }

def evaluateLockExpiredOrder (configMinMcyclePriceCollateral : U256) (o : Offer) (totalCycles : U64) :
    Except PricingError OrderPricingOutcome := do
  require (totalCycles ≠ 0) .divisionByZero
  let price := collateralRewardIfLockedAndNotFulfilled o
  let mcyclePrice := saturatingMul price ONE_MILLION / totalCycles.setWidth 256
  if mcyclePrice < configMinMcyclePriceCollateral then
    return .skip (.slashedCollateral mcyclePrice configMinMcyclePriceCollateral)
  let lockExpireTimestampSecs ← lockExpiresAt o
  let expirySecs ← expiresAt o
  return .proveAfterLockExpire {
    totalCycles := totalCycles
    lockExpireTimestampSecs := lockExpireTimestampSecs
    expirySecs := expirySecs
    mcyclePrice := mcyclePrice
    configMinMcyclePrice := configMinMcyclePriceCollateral }

/-! ### The broker's prices are the market's -/

section Market

variable {ε ε' : Type} {w : ℕ} {o : Offer}
variable {e : ε} {x y z : BitVec w} {t lockDeadline deadline : U64} {price : U256}

theorem checkedAdd_congr {e' : ε'} (h : checkedAdd e x y = .ok z) : checkedAdd e' x y = .ok z := by
  unfold checkedAdd at h ⊢
  split_ifs at h ⊢ with hfits
  cases h
  rfl

theorem checkedSub_eq (h : checkedSub e x y = .ok z) : z = x - y ∧ y ≤ x := by
  unfold checkedSub at h
  split_ifs at h with hle
  cases h
  exact ⟨rfl, hle⟩

theorem checkedMul_eq (h : checkedMul e x y = .ok z) : z = x * y := by
  unfold checkedMul at h
  split_ifs at h
  cases h
  rfl

theorem checkedAdd_eq (h : checkedAdd e x y = .ok z) : z = x + y := by
  unfold checkedAdd at h
  split_ifs at h
  cases h
  rfl

theorem priceAt_of_market (h : o.priceAt t = .ok price) : priceAt o t = .ok price := by
  rw [Offer.priceAt] at h
  rw [priceAt, priceAtTime]
  by_cases hstart : t ≤ o.rampUpStart
  · rw [if_pos hstart] at h ⊢
    cases h
    rfl
  rw [if_neg hstart] at h ⊢
  obtain ⟨lockDeadline, hdeadline, h⟩ := bind_ok_iff.mp h
  refine bind_ok_iff.mpr ⟨lockDeadline, checkedAdd_congr hdeadline, ?_⟩
  by_cases hlate : lockDeadline < t
  · rw [if_pos hlate] at h ⊢
    cases h
    rfl
  rw [if_neg hlate] at h ⊢
  obtain ⟨rampUpEnd, hend, h⟩ := bind_ok_iff.mp h
  refine bind_ok_iff.mpr ⟨rampUpEnd, checkedAdd_congr hend, ?_⟩
  by_cases hramp : t ≤ rampUpEnd
  · rw [if_pos hramp] at h ⊢
    obtain ⟨rise, hrise, h⟩ := bind_ok_iff.mp h
    obtain ⟨delta, hdelta, h⟩ := bind_ok_iff.mp h
    obtain ⟨product, hproduct, h⟩ := bind_ok_iff.mp h
    obtain ⟨_, hrun, h⟩ := bind_ok_iff.mp h
    rw [require_ok_iff] at hrun
    have hperiod : o.rampUpPeriod ≠ 0 := fun hzero => hrun (by rw [hzero]; rfl)
    have hdelta' : (t - o.rampUpStart).setWidth 256 = t.setWidth 256 - o.rampUpStart.setWidth 256 := by
      have hle := (checkedSub_eq hdelta).2
      have hle' : o.rampUpStart ≤ t := BitVec.le_of_lt (BitVec.not_le.mp hstart)
      apply BitVec.eq_of_toNat_eq
      rw [BitVec.toNat_sub_of_le hle, BitVec.toNat_setWidth, BitVec.toNat_sub_of_le hle', time_toNat, time_toNat]
      exact Nat.mod_eq_of_lt (by omega)
    rw [if_neg hperiod, hdelta', ← (checkedSub_eq hdelta).1, ← (checkedSub_eq hrise).1]
    show Except.ok (o.minPrice + delta * rise / o.rampUpPeriod.setWidth 256) = _
    rw [← checkedMul_eq hproduct, ← checkedAdd_eq h]
  · rw [if_neg hramp] at h ⊢
    cases h
    rfl

theorem divCeil_of_market {a b q : U256} (h : ceilDiv a b = .ok q) : divCeil a b = q := by
  have hb : b ≠ 0 := by
    rw [ceilDiv] at h
    obtain ⟨_, hb, -⟩ := bind_ok_iff.mp h
    exact require_ok_iff.mp hb
  have hpos : 0 < b.toNat := Nat.pos_of_ne_zero fun hzero => hb (eq_of_toNat_eq hzero)
  obtain ⟨q', hq', htoNat⟩ := Accepted.ceilDiv_eq (a := a) hb
  rw [h] at hq'
  cases hq'
  exact eq_of_toNat_eq ((toNat_divCeil a hpos).trans htoNat.symm)

theorem timeAtPrice_of_market (h : o.timeAtPrice price = .ok t) : timeAtPrice o price = .ok t := by
  rw [Offer.timeAtPrice] at h
  obtain ⟨_, hmax, h⟩ := bind_ok_iff.mp h
  rw [require_ok_iff] at hmax
  rw [timeAtPrice]
  refine bind_ok_iff.mpr ⟨(), if_pos hmax, ?_⟩
  by_cases hmin : price ≤ o.minPrice
  · rw [if_pos hmin] at h ⊢
    cases h
    rfl
  rw [if_neg hmin] at h ⊢
  obtain ⟨rise, hrise, h⟩ := bind_ok_iff.mp h
  obtain ⟨level, hlevel, h⟩ := bind_ok_iff.mp h
  obtain ⟨product, hproduct, h⟩ := bind_ok_iff.mp h
  obtain ⟨delta, hdelta, h⟩ := bind_ok_iff.mp h
  obtain ⟨delta64, hcast, h⟩ := bind_ok_iff.mp h
  refine bind_ok_iff.mpr ⟨delta64, ?_, checkedAdd_congr h⟩
  rw [← (checkedSub_eq hrise).1, ← (checkedSub_eq hlevel).1, ← checkedMul_eq hproduct, divCeil_of_market hdelta]
  unfold toUint64 safeCast at hcast
  unfold safeCast
  split_ifs at hcast ⊢ with hfits
  cases hcast
  rfl

/-- The one product in the price at a time is a word. -/
def PriceInRange (o : Offer) (t : U64) : Prop :=
  o.start < t.toNat → t.toNat ≤ o.start + o.run → (t.toNat - o.start) * o.rise < 2 ^ 256

/-- The one product in the time of a price is a word. -/
def TimeInRange (o : Offer) (price : U256) : Prop :=
  o.minPrice < price → price ≤ o.maxPrice → (price.toNat - o.minPrice.toNat) * o.run < 2 ^ 256

instance (o : Offer) (t : U64) : Decidable (PriceInRange o t) := inferInstanceAs (Decidable (_ → _ → _))

instance (o : Offer) (price : U256) : Decidable (TimeInRange o price) := inferInstanceAs (Decidable (_ → _ → _))

section

variable (h : o.validate = .ok (lockDeadline, deadline))

include h

theorem bounds_of_validate :
    o.minPrice ≤ o.maxPrice ∧ o.lockDeadline = .ok lockDeadline ∧ o.start + o.run ≤ lockDeadline.toNat := by
  simp only [validate, bind_ok_iff, require_ok_iff] at h
  obtain ⟨_, hprices, _, hperiod, _, -, l, hl, d, -, range, -, _, -, hres⟩ := h
  cases hres
  refine ⟨hprices, hl, ?_⟩
  have hsum := checkedAdd_ok hl
  rw [toNat_setWidth, Nat.mod_eq_of_lt (by have := o.lockTimeout.isLt; omega)] at hsum
  rw [hsum]
  exact Nat.add_le_add_left hperiod _

theorem market_priceAt (ht : PriceInRange o t) : ∃ price, o.priceAt t = .ok price := by
  obtain ⟨hprices, hdeadline, hend⟩ := bounds_of_validate h
  have hlast := lockDeadline.isLt
  have hperiod : (o.rampUpPeriod.setWidth 64).toNat = o.run := period_toNat (by norm_num)
  have hadd : checkedAdd Revert.arithmeticPanic o.rampUpStart (o.rampUpPeriod.setWidth 64) = .ok (o.rampUpStart + o.rampUpPeriod.setWidth 64) := by
    apply checkedAdd_eq_ok
    rw [hperiod]
    exact lt_of_le_of_lt hend hlast
  have hrampEnd := checkedAdd_ok hadd
  rw [hperiod] at hrampEnd
  unfold Offer.priceAt
  split_ifs with hstart
  · exact ⟨_, rfl⟩
  simp only [hdeadline, hadd, bind, Except.bind]
  split_ifs with hlate hramp
  · exact ⟨_, rfl⟩
  · have hstart : o.start < t.toNat := BitVec.not_le.mp hstart
    have hramp : t.toNat ≤ o.start + o.run := by
      rw [BitVec.le_def, hrampEnd] at hramp
      exact hramp
    obtain ⟨hle, hdelta⟩ := elapsed hstart.le
    have hrise : (o.maxPrice - o.minPrice).toNat = o.rise := BitVec.toNat_sub_of_le hprices
    have hproduct : (t.setWidth 256 - o.rampUpStart.setWidth 256).toNat * (o.maxPrice - o.minPrice).toNat < 2 ^ 256 := by
      rw [hdelta, hrise]
      exact ht hstart hramp
    have hperiod256 : (o.rampUpPeriod.setWidth 256).toNat = o.run := period_toNat (by norm_num)
    have hne : o.rampUpPeriod.setWidth 256 ≠ (0 : U256) := fun hzero => by
      have hrun : o.run = 0 := hperiod256.symm.trans (congrArg BitVec.toNat hzero)
      omega
    have hquotient : ((t.setWidth 256 - o.rampUpStart.setWidth 256) * (o.maxPrice - o.minPrice) / o.rampUpPeriod.setWidth 256).toNat ≤
        o.rise := by
      rw [BitVec.toNat_udiv, BitVec.toNat_mul, Nat.mod_eq_of_lt hproduct, hdelta, hrise, hperiod256]
      exact ramp_le (by omega)
    have hsum : o.minPrice.toNat +
        ((t.setWidth 256 - o.rampUpStart.setWidth 256) * (o.maxPrice - o.minPrice) / o.rampUpPeriod.setWidth 256).toNat < 2 ^ 256 := by
      have hle : o.minPrice.toNat ≤ o.maxPrice.toNat := hprices
      rw [Offer.rise] at hquotient
      omega
    refine ⟨o.minPrice + (t.setWidth 256 - o.rampUpStart.setWidth 256) * (o.maxPrice - o.minPrice) / o.rampUpPeriod.setWidth 256, ?_⟩
    rw [checkedSub, if_pos hprices, checkedSub, if_pos hle]
    simp only [checkedMul, hproduct, if_true, require, if_pos hne]
    exact checkedAdd_eq_ok hsum
  · exact ⟨_, rfl⟩

/-- The market has a time for every price up to the maximum for which the product is a word. -/
theorem market_timeAtPrice
    (hmax : price ≤ o.maxPrice) (hp : TimeInRange o price) : ∃ t, o.timeAtPrice price = .ok t := by
  obtain ⟨hprices, -, hend⟩ := bounds_of_validate h
  have hlast := lockDeadline.isLt
  by_cases hmin : price ≤ o.minPrice
  · exact ⟨0, timeAtPrice_low hmax hmin⟩
  have habove : o.minPrice.toNat < price.toNat := not_le.mp hmin
  have hbelow : price.toNat ≤ o.maxPrice.toNat := hmax
  have hminLe : o.minPrice ≤ price := habove.le
  have hrise : (o.maxPrice - o.minPrice).toNat = o.rise := toNat_sub_of_le hprices
  have hlevel : (price - o.minPrice).toNat = price.toNat - o.minPrice.toNat := toNat_sub_of_le hminLe
  have hlevelLe : price.toNat - o.minPrice.toNat ≤ o.rise := Nat.sub_le_sub_right hbelow _
  have hrisePos : 0 < o.rise := by omega
  have hrun : (o.rampUpPeriod.setWidth 256).toNat = o.run := period_toNat (by norm_num)
  have hproduct : (price - o.minPrice).toNat * (o.rampUpPeriod.setWidth 256).toNat < 2 ^ 256 := by
    rw [hlevel, hrun]
    exact hp habove hmax
  have hne : o.maxPrice - o.minPrice ≠ 0 := fun hzero => by
    rw [hzero] at hrise
    exact hrisePos.ne hrise
  obtain ⟨q, hdiv, hq⟩ := ceilDiv_eq (a := (price - o.minPrice) * o.rampUpPeriod.setWidth 256) hne
  rw [toNat_mul, Nat.mod_eq_of_lt hproduct, hlevel, hrise, hrun] at hq
  have hqRun : q.toNat ≤ o.run := hq ▸ rampInverse_le hrisePos hlevelLe
  have hfits : q.toNat < 2 ^ 64 := by omega
  have hcast : toUint64 q = .ok (q.setWidth 64) := if_pos hfits
  have hadd : checkedAdd Revert.arithmeticPanic o.rampUpStart (q.setWidth 64) = .ok (o.rampUpStart + q.setWidth 64) := by
    apply checkedAdd_eq_ok
    rw [toNat_setWidth, Nat.mod_eq_of_lt hfits]
    have hstart : o.rampUpStart.toNat + o.run < 2 ^ 64 := lt_of_le_of_lt hend hlast
    omega
  refine ⟨o.rampUpStart + q.setWidth 64, ?_⟩
  simp only [Offer.timeAtPrice, require, if_pos hmax, bind, Except.bind, if_neg hmin, checkedSub, if_pos hprices, if_pos hminLe,
    checkedMul, if_pos hproduct, hdiv, hcast, hadd]

end

/-- The broker and the market agree on the price at a time and on the time of a price, and on whether there is one. -/
theorem auction_pricing_agrees (o : Offer) (lockDeadline deadline : U64) (h : o.validate = .ok (lockDeadline, deadline))
    (t : U64) (price : U256) (ht : PriceInRange o t) (hp : TimeInRange o price) :
    (priceAt o t).toOption = (o.priceAt t).toOption ∧ (timeAtPrice o price).toOption = (o.timeAtPrice price).toOption := by
  constructor
  · obtain ⟨p, hprice⟩ := market_priceAt h ht
    rw [hprice, priceAt_of_market hprice]
    rfl
  · by_cases hmax : price ≤ o.maxPrice
    · obtain ⟨time, htime⟩ := market_timeAtPrice h hmax hp
      rw [htime, timeAtPrice_of_market htime]
      rfl
    · have hmarket : o.timeAtPrice price = .error .invalidRequest := by
        simp only [Offer.timeAtPrice, require, if_neg hmax, bind, Except.bind]
      have hbroker : timeAtPrice o price = .error .priceExceedsMax := by
        simp only [timeAtPrice, require, if_neg hmax, bind, Except.bind]
      rw [hmarket, hbroker]
      rfl

theorem auction_pricing_agrees_flat : (priceAt Offer.flatOffer 100).toOption = (Offer.flatOffer.priceAt 100).toOption ∧
    (timeAtPrice Offer.flatOffer 2).toOption = (Offer.flatOffer.timeAtPrice 2).toOption :=
  auction_pricing_agrees Offer.flatOffer 600 600 rfl 100 2 (by decide) (by decide)

end Market

/-! ### The time of a lock -/

def requiredPrice (configMinMcyclePrice : U256) (totalCycles : U64) (orderGasCost : U256) : ℕ :=
  orderGasCost.toNat + configMinMcyclePrice.toNat * totalCycles.toNat ⌈/⌉ 1000000

def highestPrice (o : Offer) : ℕ := if o.lockTimeout = 0 then o.minPrice.toNat else o.maxPrice.toNat

/-- An order that is skipped never pays, and one that is locked pays from its target time on. -/
def LocksInTime (configMinMcyclePrice : U256) (now : U64) (o : Offer) (lockDeadline totalCycles : U64) (orderGasCost : U256) : Prop :=
  match evaluateLockableOrder configMinMcyclePrice now o totalCycles orderGasCost with
  | .ok (.skip _) => ∀ t, ∃ price, priceAt o t = .ok price ∧ price.toNat < requiredPrice configMinMcyclePrice totalCycles orderGasCost
  | .ok (.lock outcome) => ∀ t ≤ lockDeadline, ∃ price, priceAt o t = .ok price ∧
      (requiredPrice configMinMcyclePrice totalCycles orderGasCost ≤ price.toNat ↔ outcome.targetTimestampSecs ≤ t)
  | _ => False

section

variable {p gas : U256} {c now lockDeadline deadline : U64} {o : Offer}

theorem cycles_toNat (c : U64) : (c.setWidth 256).toNat = c.toNat := Accepted.time_toNat c

/-- The price of the cycles is below the configured one where the required price is not reached. -/
theorem mcyclePrice_lt_iff (hc : 0 < c.toNat) (price : U256) :
    mcyclePrice price gas c < p ↔ min ((price.toNat - gas.toNat) * 1000000) (2 ^ 256 - 1) < p.toNat * c.toNat := by
  rw [lt_def, mcyclePrice, toNat_udiv, toNat_saturatingMul, toNat_saturatingSub, cycles_toNat]
  exact Nat.div_lt_iff_lt_mul hc

theorem lt_requiredPrice_iff (hp : 0 < p.toNat) (hc : 0 < c.toNat) (price : ℕ) :
    price < requiredPrice p c gas ↔ (price - gas.toNat) * 1000000 < p.toNat * c.toNat := by
  have hpos : 0 < p.toNat * c.toNat := Nat.mul_pos hp hc
  have hle (x : ℕ) : p.toNat * c.toNat ⌈/⌉ 1000000 ≤ x ↔ p.toNat * c.toNat ≤ 1000000 * x := ceilDiv_le_iff_le_mul (by norm_num)
  have hlevel := hle (price - gas.toNat)
  rw [requiredPrice]
  omega

/-- Without saturation the comparison of the rounded prices is that of the exact ones. -/
theorem mcyclePrice_lt_iff_lt_requiredPrice (hp : 0 < p.toNat) (hc : 0 < c.toNat) (hfits : p.toNat * c.toNat < 2 ^ 256) (price : U256) :
    mcyclePrice price gas c < p ↔ price.toNat < requiredPrice p c gas := by
  rw [mcyclePrice_lt_iff hc, lt_requiredPrice_iff hp hc]
  omega

/-- Beyond 256 bits the product with the configured price is not reached by any price. -/
theorem mcyclePrice_lt_of_le (hc : 0 < c.toNat) (hlarge : 2 ^ 256 ≤ p.toNat * c.toNat) (price : U256) : mcyclePrice price gas c < p := by
  rw [mcyclePrice_lt_iff hc]
  omega

theorem targetMinPrice_toNat (hfits : p.toNat * c.toNat < 2 ^ 256) (hmax : requiredPrice p c gas < 2 ^ 256) :
    (targetMinPrice p gas c).toNat = requiredPrice p c gas := by
  have hceil : (divCeil (saturatingMul p (c.setWidth 256)) ONE_MILLION).toNat = p.toNat * c.toNat ⌈/⌉ 1000000 := by
    rw [toNat_divCeil _ (by decide), toNat_saturatingMul, cycles_toNat, min_eq_left (by omega)]
    rfl
  rw [requiredPrice] at hmax ⊢
  rw [targetMinPrice, toNat_add_of_lt (by rw [hceil]; omega), hceil, Nat.add_comm]

section Accepted

variable (h : o.Accepted lockDeadline)
include h

theorem priceAt_curve (t : U64) : ∃ price, priceAt o t = .ok price ∧ price.toNat = o.curve t.toNat := by
  obtain ⟨price, hprice, hcurve⟩ := h.priceAt_eq t
  exact ⟨price, priceAt_of_market hprice, hcurve⟩

theorem exists_priceAt_iff (t : U64) (P : ℕ → Prop) : (∃ price, priceAt o t = .ok price ∧ P price.toNat) ↔ P (o.curve t.toNat) := by
  obtain ⟨price, hprice, hcurve⟩ := priceAt_curve h t
  constructor
  · rintro ⟨price', hprice', hP⟩
    rw [hprice] at hprice'
    cases hprice'
    rwa [← hcurve]
  · intro hP
    exact ⟨price, hprice, by rwa [hcurve]⟩

theorem curve_le_highestPrice (t : ℕ) : o.curve t ≤ highestPrice o := by
  unfold highestPrice
  by_cases hlate : t ≤ o.lockEnd
  · split_ifs with hzero
    · have hend : o.lockEnd = o.start := by rw [lockEnd, hzero]; rfl
      exact (if_pos (hend ▸ hlate) : o.curve t = o.minPrice.toNat).le
    · exact (h.curve_range hlate).2
  · have hcurve : o.curve t = 0 := by
      rw [curve, if_neg (by rw [lockEnd] at hlate; omega), if_pos (by omega)]
    rw [hcurve]
    exact Nat.zero_le _

theorem exists_curve_eq_highestPrice : ∃ t : U64, o.curve t.toNat = highestPrice o := by
  have hprices := h.prices
  have hperiod := h.period
  unfold highestPrice
  split_ifs with hzero
  · exact ⟨o.rampUpStart, if_pos (le_refl o.start)⟩
  · have hpos : 0 < o.lockTimeout.toNat := Nat.pos_of_ne_zero fun hz => hzero (eq_of_toNat_eq hz)
    refine ⟨lockDeadline, ?_⟩
    rw [h.deadline_toNat, curve, if_neg (by rw [lockEnd]; omega), if_neg (lt_irrefl _)]
    split_ifs with hramp
    · have hrun : o.run = o.lockTimeout.toNat := by rw [lockEnd] at hramp; omega
      have hfull : ramp o.rise o.run (o.lockEnd - o.start) = o.rise := by
        rw [lockEnd, Nat.add_sub_cancel_left, ← hrun, ramp, Nat.mul_div_cancel_left _ (hrun ▸ hpos)]
      rw [hfull, rise]
      omega
    · rfl

theorem forall_lt_iff (required : ℕ) : (∀ t : U64, o.curve t.toNat < required) ↔ highestPrice o < required := by
  constructor
  · intro hall
    obtain ⟨t, ht⟩ := exists_curve_eq_highestPrice h
    exact ht ▸ hall t
  · intro hlt t
    exact lt_of_le_of_lt (curve_le_highestPrice h t.toNat) hlt

theorem highestPrice_le : highestPrice o ≤ o.maxPrice.toNat := by
  have hprices := h.prices
  unfold highestPrice
  split_ifs
  · exact hprices
  · exact le_rfl

theorem lockExpiresAt_eq : lockExpiresAt o = .ok lockDeadline := checkedAdd_congr h.deadline

theorem evaluateLockableOrder_lock (now : U64) (hc : c ≠ 0) (hskip : ¬mcyclePrice o.maxPrice gas c < p) {t : U64}
    (ht : if p ≤ mcyclePrice o.minPrice gas c then t = 0 else timeAtPrice o (targetMinPrice p gas c) = .ok t) :
    ∃ outcome, evaluateLockableOrder p now o c gas = .ok (.lock outcome) ∧ outcome.targetTimestampSecs = t := by
  obtain ⟨current, hcurrent, -⟩ := priceAt_curve h now
  have hexpiry := lockExpiresAt_eq h
  split_ifs at ht with hmin
  · subst ht
    refine ⟨⟨c, 0, lockDeadline, mcyclePrice o.minPrice gas c, mcyclePrice o.maxPrice gas c, p, current⟩, ?_, rfl⟩
    simp only [evaluateLockableOrder, require, if_pos hc, if_neg hskip, hcurrent, if_pos hmin, hexpiry, bind, Except.bind, pure, Except.pure]
  · refine ⟨⟨c, t, lockDeadline, targetMinPrice p gas c, mcyclePrice o.maxPrice gas c, p, current⟩, ?_, rfl⟩
    simp only [evaluateLockableOrder, require, if_pos hc, if_neg hskip, hcurrent, if_neg hmin, ht, hexpiry, Except.map, bind, Except.bind,
      pure, Except.pure]

theorem locksInTime_of_lock {outcome : LockOutcome} (heval : evaluateLockableOrder p now o c gas = .ok (.lock outcome)) :
    LocksInTime p now o lockDeadline c gas ↔
      ∀ t ≤ lockDeadline, (requiredPrice p c gas ≤ o.curve t.toNat ↔ outcome.targetTimestampSecs ≤ t) := by
  rw [LocksInTime, heval]
  exact forall₂_congr fun t _ =>
    exists_priceAt_iff h t fun price => requiredPrice p c gas ≤ price ↔ outcome.targetTimestampSecs ≤ t

end Accepted

theorem evaluateLockableOrder_skip (hc : c ≠ 0) (hskip : mcyclePrice o.maxPrice gas c < p) :
    evaluateLockableOrder p now o c gas = .ok (.skip (.maxPrice o.maxPrice p)) := by
  simp only [evaluateLockableOrder, require, if_pos hc, if_pos hskip, bind, Except.bind, pure, Except.pure]

theorem locksInTime_of_skip (h : o.Accepted lockDeadline) (hc : c ≠ 0) (hskip : mcyclePrice o.maxPrice gas c < p) :
    LocksInTime p now o lockDeadline c gas ↔ highestPrice o < requiredPrice p c gas := by
  rw [LocksInTime, evaluateLockableOrder_skip hc hskip, ← forall_lt_iff h]
  exact forall_congr' fun t => exists_priceAt_iff h t fun price => price < requiredPrice p c gas

variable (h : o.Accepted lockDeadline) (hp : 0 < p.toNat) (hc : c ≠ 0) (hcycles : 0 < c.toNat) (hfits : p.toNat * c.toNat < 2 ^ 256)

include h hp hc hcycles hfits

/-- A required price that the offer reaches late enough: the time of the lock is that of the price, except on a
ramp of length zero. -/
theorem locksInTime_of_between (hlow : o.minPrice.toNat < requiredPrice p c gas) (hhigh : requiredPrice p c gas ≤ o.maxPrice.toNat) :
    LocksInTime p now o lockDeadline c gas ↔ 0 < o.run := by
  have hskip : ¬mcyclePrice o.maxPrice gas c < p := by
    rw [mcyclePrice_lt_iff_lt_requiredPrice hp hcycles hfits]
    omega
  have hmin : ¬p ≤ mcyclePrice o.minPrice gas c := by
    rw [BitVec.not_le, mcyclePrice_lt_iff_lt_requiredPrice hp hcycles hfits]
    exact hlow
  have htarget : (targetMinPrice p gas c).toNat = requiredPrice p c gas := targetMinPrice_toNat hfits (lt_of_le_of_lt hhigh o.maxPrice.isLt)
  have hmaxPrice : targetMinPrice p gas c ≤ o.maxPrice := by rwa [BitVec.le_def, htarget]
  have hminPrice : ¬targetMinPrice p gas c ≤ o.minPrice := by
    rw [BitVec.le_def, htarget]
    omega
  obtain ⟨earliest, htime, hreached⟩ := h.timeAtPrice_high hmaxPrice hminPrice
  rw [htarget] at hreached
  obtain ⟨outcome, heval, rfl⟩ := evaluateLockableOrder_lock h now hc hskip (t := earliest)
    (by rw [if_neg hmin]; exact timeAtPrice_of_market htime)
  rw [locksInTime_of_lock h heval]
  constructor
  · intro hall
    by_contra hrun
    have hzero : o.run = 0 := by omega
    have hend : o.rampUpStart ≤ lockDeadline := by
      rw [BitVec.le_def, h.deadline_toNat]
      exact Nat.le_add_right _ _
    have hstart : outcome.targetTimestampSecs ≤ o.rampUpStart := by
      rw [BitVec.le_def, hreached, Accepted.reached_of_run_eq_zero hzero]
      exact le_refl o.start
    have hprice := (hall o.rampUpStart hend).mpr hstart
    have hcurve : o.curve o.rampUpStart.toNat = o.minPrice.toNat := if_pos (le_refl o.start)
    omega
  · intro hrun t ht
    rw [BitVec.le_def, hreached]
    exact Accepted.le_curve_iff hrun (h.until_deadline ht) hlow hhigh

/-- What is locked at once pays at all times before the lock deadline. -/
theorem locksInTime_of_low (hlow : requiredPrice p c gas ≤ o.minPrice.toNat) : LocksInTime p now o lockDeadline c gas := by
  have hprices := h.prices
  have hmin : ¬mcyclePrice o.minPrice gas c < p := by
    rw [mcyclePrice_lt_iff_lt_requiredPrice hp hcycles hfits]
    omega
  have hskip : ¬mcyclePrice o.maxPrice gas c < p := by
    rw [mcyclePrice_lt_iff_lt_requiredPrice hp hcycles hfits]
    omega
  obtain ⟨outcome, heval, hzero⟩ := evaluateLockableOrder_lock h now hc hskip (t := 0)
    (by rw [if_pos (BitVec.not_lt.mp hmin)])
  rw [locksInTime_of_lock h heval]
  intro t ht
  rw [hzero]
  exact iff_of_true (le_trans hlow (h.curve_range (h.until_deadline ht)).1) (Nat.zero_le t.toNat)

end

/-- An order is locked in time or skipped for good exactly if, where the required price is between the prices of the
offer, the ramp takes time; and, where the product of price and cycles is beyond 256 bits, no price is as high as
required. -/
theorem locksInTime_iff (p gas : U256) (c now lockDeadline deadline : U64) (o : Offer)
    (h : o.validate = .ok (lockDeadline, deadline)) (hfits : o.Fits) (hp : p ≠ 0) (hc : 1 ≤ c) :
    LocksInTime p now o lockDeadline c gas ↔
      (p.toNat * c.toNat < 2 ^ 256 → o.minPrice.toNat < requiredPrice p c gas → requiredPrice p c gas ≤ o.maxPrice.toNat →
        o.rampUpPeriod ≠ 0) ∧
      (2 ^ 256 ≤ p.toNat * c.toNat → highestPrice o < requiredPrice p c gas) := by
  have haccepted := Offer.accepted_of_validate h hfits
  have hppos : 0 < p.toNat := Nat.pos_of_ne_zero fun hzero => hp (BitVec.eq_of_toNat_eq hzero)
  have hcpos : 0 < c.toNat := hc
  have hczero : c ≠ 0 := fun hzero => by
    rw [hzero] at hcpos
    exact Nat.lt_irrefl 0 hcpos
  have hrun : o.rampUpPeriod ≠ 0 ↔ 0 < o.run :=
    ⟨fun hne => Nat.pos_of_ne_zero fun hzero => hne (BitVec.eq_of_toNat_eq hzero), fun hpos hzero => hpos.ne (congrArg BitVec.toNat hzero).symm⟩
  rw [hrun]
  rcases Nat.lt_or_ge (p.toNat * c.toNat) (2 ^ 256) with hsmall | hlarge
  · have hnot : ¬2 ^ 256 ≤ p.toNat * c.toNat := Nat.not_le.mpr hsmall
    rcases Nat.lt_or_ge o.minPrice.toNat (requiredPrice p c gas) with hlow | hlow
    · rcases Nat.lt_or_ge o.maxPrice.toNat (requiredPrice p c gas) with hhigh | hhigh
      · have hskip := (mcyclePrice_lt_iff_lt_requiredPrice hppos hcpos hsmall o.maxPrice).mpr hhigh
        rw [locksInTime_of_skip haccepted hczero hskip]
        have hle := highestPrice_le haccepted
        exact iff_of_true (by omega) ⟨fun _ _ hle' => absurd hle' (Nat.not_le.mpr hhigh), fun hle' => absurd hle' hnot⟩
      · rw [locksInTime_of_between haccepted hppos hczero hcpos hsmall hlow hhigh]
        exact ⟨fun hpos => ⟨fun _ _ _ => hpos, fun hle' => absurd hle' hnot⟩, fun hcond => hcond.1 hsmall hlow hhigh⟩
    · exact iff_of_true (locksInTime_of_low haccepted hppos hczero hcpos hsmall hlow)
        ⟨fun _ hlow' => absurd hlow' (Nat.not_lt.mpr hlow), fun hle' => absurd hle' hnot⟩
  · rw [locksInTime_of_skip haccepted hczero (mcyclePrice_lt_of_le hcpos hlarge o.maxPrice)]
    exact ⟨fun hlt => ⟨fun hsmall => absurd hlarge (Nat.not_le.mpr hsmall), fun _ => hlt⟩, fun hcond => hcond.2 hlarge⟩

/-- On a ramp of one second the required price is the maximum, and its time is the end of the ramp. -/
theorem locksInTime_iff_sample : LocksInTime 1 0 ⟨1, 2, 100, 1, 500, 500, 0⟩ 600 1000000 1 ↔
    ((1 : U256).toNat * (1000000 : U64).toNat < 2 ^ 256 → 1 < requiredPrice 1 1000000 1 → requiredPrice 1 1000000 1 ≤ 2 → (1 : U32) ≠ 0) ∧
      (2 ^ 256 ≤ (1 : U256).toNat * (1000000 : U64).toNat → highestPrice ⟨1, 2, 100, 1, 500, 500, 0⟩ < requiredPrice 1 1000000 1) :=
  locksInTime_iff 1 1 1000000 0 600 600 ⟨1, 2, 100, 1, 500, 500, 0⟩ rfl (by decide) (by decide) (by decide)

/-- Without a ramp the order is locked from its start on, where the price is still the minimum. -/
theorem not_locksInTime_flat : Offer.flatOffer.validate = .ok (600, 600) ∧ Offer.flatOffer.Fits ∧
    evaluateLockableOrder 1 0 Offer.flatOffer 1000000 1 = .ok (.lock ⟨1000000, 100, 600, 2, 1, 1, 1⟩) ∧ priceAt Offer.flatOffer 100 = .ok 1 ∧
    ¬LocksInTime 1 0 Offer.flatOffer 600 1000000 1 := by
  have heval : evaluateLockableOrder 1 0 Offer.flatOffer 1000000 1 = .ok (.lock ⟨1000000, 100, 600, 2, 1, 1, 1⟩) := by decide
  refine ⟨rfl, by decide, heval, rfl, fun hlocks => ?_⟩
  rw [LocksInTime, heval] at hlocks
  obtain ⟨price, hprice, hiff⟩ := hlocks 100 (by decide)
  have hone : price = 1 := (Except.ok.inj hprice).symm
  rw [hone] at hiff
  exact absurd (hiff.mpr (BitVec.le_refl _)) (by decide)

/-! ### The limits of an execution -/

structure PricingConfig where
  maxMcycleLimit : U64
  peakProveKhz : Option U64
  minMcyclePrice : U256
  minMcyclePriceCollateralToken : U256

inductive ProveLimitReason
  | collateralPricing (mcyclePriceCollateral collateralReward : U256)
  | ethPricing (maxPrice gasCost mcyclePriceEth : U256)
  | configCap (maxMcycles : U64)
  | deadlineCap (timeRemainingSecs peakProveKhz : U64)
  deriving DecidableEq

structure Limits where
  preflightLimit : U64
  proveLimit : U64
  proveLimitReason : ProveLimitReason
  deriving DecidableEq

def expiry (fulfillmentType : FulfillmentType) (o : Offer) : Except PricingError U64 :=
  match fulfillmentType with
  | .lockAndFulfill => lockExpiresAt o
  | .fulfillAfterLockExpire => expiresAt o
  | .fulfillWithoutLocking => expiresAt o

def calculateMaxCyclesForTime (proveKhz timeSeconds : U64) : U64 := saturatingMul (saturatingMul proveKhz 1000) timeSeconds

section

variable (config : PricingConfig) (o : Offer) (orderGasCost : U256)

/-- Without a price for the cycles there is no limit. -/
def collateralBasedLimit : U64 :=
  if config.minMcyclePriceCollateralToken = 0 then BitVec.allOnes 64
  else saturatingCast 64
    (divCeil (saturatingMul (collateralRewardIfLockedAndNotFulfilled o) ONE_MILLION) config.minMcyclePriceCollateralToken)

def ethBasedLimit : U64 :=
  if config.minMcyclePrice = 0 then BitVec.allOnes 64
  else saturatingCast 64 (saturatingMul (saturatingSub o.maxPrice orderGasCost) ONE_MILLION / config.minMcyclePrice)

def pricedLimits (fulfillmentType : FulfillmentType) : Limits :=
  let collateral := collateralBasedLimit config o
  let eth := ethBasedLimit config o orderGasCost
  if fulfillmentType = .fulfillAfterLockExpire then
    ⟨collateral, collateral, .collateralPricing config.minMcyclePriceCollateralToken (collateralRewardIfLockedAndNotFulfilled o)⟩
  else
    let reason := .ethPricing o.maxPrice orderGasCost config.minMcyclePrice
    if collateral < eth then ⟨eth, eth, reason⟩ else ⟨collateral, eth, reason⟩

/-- The cap that is configured, for all but priority requestors. -/
def Limits.capByConfig (skipMcycleLimit : Bool) (limits : Limits) : Limits :=
  if skipMcycleLimit then limits
  else
    let configCycleLimit := saturatingMul config.maxMcycleLimit 1000000
    if configCycleLimit < limits.proveLimit then ⟨configCycleLimit, configCycleLimit, .configCap config.maxMcycleLimit⟩
    else if configCycleLimit < limits.preflightLimit then { limits with preflightLimit := configCycleLimit }
    else limits

/-- What can be proven in time, at the speed that is configured. -/
def Limits.capByDeadline (fulfillmentType : FulfillmentType) (now requestExpiration lockExpiry orderExpiry : U64) (limits : Limits) : Limits :=
  match config.peakProveKhz with
  | none => limits
  | some peakProveKhz =>
    let proveWindow := saturatingSub requestExpiration now
    let proveDeadlineLimit := calculateMaxCyclesForTime peakProveKhz proveWindow
    let limits :=
      if proveDeadlineLimit < limits.proveLimit then
        { limits with proveLimit := proveDeadlineLimit, proveLimitReason := .deadlineCap proveWindow peakProveKhz }
      else limits
    let newPreflightLimit :=
      if fulfillmentType ≠ .fulfillAfterLockExpire then
        let fulfillAfterExpiryLimit := calculateMaxCyclesForTime peakProveKhz (saturatingSub orderExpiry lockExpiry)
        if proveDeadlineLimit < fulfillAfterExpiryLimit then fulfillAfterExpiryLimit else proveDeadlineLimit
      else proveDeadlineLimit
    if newPreflightLimit < limits.preflightLimit then { limits with preflightLimit := newPreflightLimit } else limits

/-- The limits by price, with an assertion, and the limits that the caps leave of them, with the same one. -/
def calculateExecLimits (skipMcycleLimit : Bool) (now : U64) (fulfillmentType : FulfillmentType) : Except PricingError Limits := do
  let requestExpiration ← expiry fulfillmentType o
  let lockExpiry ← lockExpiresAt o
  let orderExpiry ← expiresAt o
  let priced := pricedLimits config o orderGasCost fulfillmentType
  require (priced.proveLimit ≤ priced.preflightLimit) .assertion
  let capped := priced.capByConfig config skipMcycleLimit
  let limits := capped.capByDeadline config fulfillmentType now requestExpiration lockExpiry orderExpiry
  require (limits.proveLimit ≤ limits.preflightLimit) .assertion
  return limits

end

/-! ### Limits and prices agree -/

def limitTerms (config : PricingConfig) (o : Offer) (orderGasCost : U256) (skipMcycleLimit : Bool) (now : U64)
    (fulfillmentType : FulfillmentType) (requestExpiration lockExpiry orderExpiry : U64) : LimitTerms where
  fulfillAfterLockExpire := fulfillmentType = .fulfillAfterLockExpire
  collateralBasedLimit := collateralBasedLimit config o
  ethBasedLimit := ethBasedLimit config o orderGasCost
  configCycleLimit := if skipMcycleLimit then none else some (saturatingMul config.maxMcycleLimit 1000000)
  deadlineLimits := config.peakProveKhz.map fun peakProveKhz =>
    (calculateMaxCyclesForTime peakProveKhz (saturatingSub requestExpiration now),
      calculateMaxCyclesForTime peakProveKhz (saturatingSub orderExpiry lockExpiry))

/-- The numbers of the limits, without their reason. -/
structure Limits.Shows (limits : Limits) (e : ExecLimits) : Prop where
  preflight : limits.preflightLimit = e.preflight
  prove : limits.proveLimit = e.prove

theorem Limits.Shows.ordered {limits : Limits} {e : ExecLimits} (h : limits.Shows e) : limits.proveLimit ≤ limits.preflightLimit := by
  rw [h.preflight, h.prove]
  exact e.le

section

variable (config : PricingConfig) (o : Offer) (gas : U256) (skipMcycleLimit : Bool) (now : U64) (fulfillmentType : FulfillmentType)
  (requestExpiration lockExpiry orderExpiry : U64) {limits : Limits} {e : ExecLimits}

theorem pricedLimits_shows : (pricedLimits config o gas fulfillmentType).Shows
    (limitTerms config o gas skipMcycleLimit now fulfillmentType requestExpiration lockExpiry orderExpiry).byPrice := by
  by_cases hexpired : fulfillmentType = .fulfillAfterLockExpire
  · constructor <;> simp [pricedLimits, LimitTerms.byPrice, limitTerms, hexpired]
  · by_cases hlt : collateralBasedLimit config o < ethBasedLimit config o gas
    · constructor <;> simp [pricedLimits, LimitTerms.byPrice, limitTerms, hexpired, hlt]
    · constructor <;> simp [pricedLimits, LimitTerms.byPrice, limitTerms, hexpired, hlt]

theorem capByConfig_shows (h : limits.Shows e) : (limits.capByConfig config skipMcycleLimit).Shows
    ((limitTerms config o gas skipMcycleLimit now fulfillmentType requestExpiration lockExpiry orderExpiry).capped e) := by
  obtain ⟨hpreflight, hprove⟩ := h
  cases skipMcycleLimit with
  | true => exact ⟨hpreflight, hprove⟩
  | false =>
    rw [LimitTerms.capped, Limits.capByConfig, hpreflight, hprove]
    simp only [limitTerms, Bool.false_eq_true, if_false]
    generalize saturatingMul config.maxMcycleLimit 1000000 = cap
    by_cases hbelow : cap < e.prove
    · rw [if_pos hbelow, dif_pos hbelow]
      exact ⟨rfl, rfl⟩
    rw [if_neg hbelow, dif_neg hbelow]
    by_cases hbelow' : cap < e.preflight
    · rw [if_pos hbelow', if_pos hbelow']
      exact ⟨rfl, rfl⟩
    · rw [if_neg hbelow', if_neg hbelow']
      exact ⟨hpreflight, hprove⟩

theorem capByDeadline_shows (h : limits.Shows e) :
    (limits.capByDeadline config fulfillmentType now requestExpiration lockExpiry orderExpiry).Shows
      ((limitTerms config o gas skipMcycleLimit now fulfillmentType requestExpiration lockExpiry orderExpiry).inTime e) := by
  obtain ⟨hpreflight, hprove⟩ := h
  rw [LimitTerms.inTime, Limits.capByDeadline]
  cases hspeed : config.peakProveKhz with
  | none =>
    simp only [limitTerms, hspeed, Option.map_none]
    exact ⟨hpreflight, hprove⟩
  | some peakProveKhz =>
    simp only [limitTerms, hspeed, Option.map_some, LimitTerms.newPreflightLimit, LimitTerms.lower, ← hpreflight, ← hprove]
    by_cases hexpired : fulfillmentType = .fulfillAfterLockExpire
    · constructor <;> simp only [hexpired, ne_eq, not_true, decide_true, if_true, if_false] <;> split_ifs <;> rfl
    · constructor <;> simp only [hexpired, ne_eq, not_false_iff, decide_false, Bool.false_eq_true, if_true, if_false] <;> split_ifs <;> rfl

/-- The limits are those of the order's terms, and neither assertion fails: an error comes from the times of the offer. -/
theorem calculateExecLimits_cases :
    calculateExecLimits config o gas skipMcycleLimit now fulfillmentType = .error .arithmeticPanic ∨
      ∃ limits t, calculateExecLimits config o gas skipMcycleLimit now fulfillmentType = .ok limits ∧
        limits.Shows (LimitTerms.calculateExecLimits t) ∧ (pricedLimits config o gas fulfillmentType).Shows t.byPrice := by
  have hchecked : ∀ x y : U64, checkedAdd PricingError.arithmeticPanic x y = .error .arithmeticPanic ∨
      ∃ z, checkedAdd PricingError.arithmeticPanic x y = .ok z := fun x y => by
    unfold checkedAdd
    split_ifs
    · exact .inr ⟨_, rfl⟩
    · exact .inl rfl
  have hexpiry : expiry fulfillmentType o = .error .arithmeticPanic ∨ ∃ t, expiry fulfillmentType o = .ok t := by
    cases fulfillmentType <;> exact hchecked _ _
  unfold calculateExecLimits
  obtain hfail | ⟨requestExpiration, hrequest⟩ := hexpiry
  · rw [hfail]
    exact .inl rfl
  obtain hfail | ⟨lockExpiry, hlock⟩ : lockExpiresAt o = .error .arithmeticPanic ∨ ∃ t, lockExpiresAt o = .ok t := hchecked _ _
  · rw [hrequest, hfail]
    exact .inl rfl
  obtain hfail | ⟨orderExpiry, horder⟩ : expiresAt o = .error .arithmeticPanic ∨ ∃ t, expiresAt o = .ok t := hchecked _ _
  · rw [hrequest, hlock, hfail]
    exact .inl rfl
  have hpriced := pricedLimits_shows config o gas skipMcycleLimit now fulfillmentType requestExpiration lockExpiry orderExpiry
  have hcapped := capByConfig_shows config o gas skipMcycleLimit now fulfillmentType requestExpiration lockExpiry orderExpiry hpriced
  have hlimits := capByDeadline_shows config o gas skipMcycleLimit now fulfillmentType requestExpiration lockExpiry orderExpiry hcapped
  refine .inr ⟨_, _, ?_, hlimits, hpriced⟩
  simp only [hrequest, hlock, horder, require, if_pos hpriced.ordered, if_pos hlimits.ordered, bind, Except.bind, pure, Except.pure]

end

section

variable {config : PricingConfig} {o : Offer} {gas p : U256} {c now : U64}

theorem toNat_allOnes64 : (allOnes 64).toNat = 2 ^ 64 - 1 := toNat_allOnes

/-- As many cycles as the price pays for before they are counted, are those that it pays for after. -/
theorem le_ethBasedLimit_iff (hc : 0 < c.toNat) :
    c ≤ ethBasedLimit config o gas ↔ ¬mcyclePrice o.maxPrice gas c < config.minMcyclePrice := by
  rw [le_def, ethBasedLimit]
  by_cases hfree : config.minMcyclePrice = 0
  · rw [if_pos hfree, hfree, toNat_allOnes64]
    exact iff_of_true (by omega) not_lt_zero
  · have hpos : 0 < config.minMcyclePrice.toNat := Nat.pos_of_ne_zero fun hzero => hfree (eq_of_toNat_eq hzero)
    rw [if_neg hfree, toNat_saturatingCast, toNat_udiv, toNat_saturatingMul, toNat_saturatingSub, mcyclePrice_lt_iff hc, le_min_iff,
      Nat.le_div_iff_mul_le hpos, not_lt, Nat.mul_comm c.toNat]
    exact and_iff_left (by omega)

theorem le_collateralBasedLimit (hc : 0 < c.toNat) (h : config.minMcyclePriceCollateralToken ≤
      saturatingMul (collateralRewardIfLockedAndNotFulfilled o) ONE_MILLION / c.setWidth 256) :
    c ≤ collateralBasedLimit config o := by
  rw [le_def, collateralBasedLimit]
  by_cases hfree : config.minMcyclePriceCollateralToken = 0
  · rw [if_pos hfree, toNat_allOnes64]
    omega
  · have hpos : 0 < config.minMcyclePriceCollateralToken.toNat := Nat.pos_of_ne_zero fun hzero => hfree (eq_of_toNat_eq hzero)
    rw [le_def, toNat_udiv, cycles_toNat, Nat.le_div_iff_mul_le hc] at h
    rw [if_neg hfree, toNat_saturatingCast, toNat_divCeil _ hpos, le_min_iff]
    refine ⟨?_, by omega⟩
    have hfloor : c.toNat ≤ (saturatingMul (collateralRewardIfLockedAndNotFulfilled o) ONE_MILLION).toNat / config.minMcyclePriceCollateralToken.toNat :=
      (Nat.le_div_iff_mul_le hpos).mpr (by rwa [Nat.mul_comm])
    rw [← Nat.floorDiv_eq_div] at hfloor
    exact le_trans hfloor floorDiv_le_ceilDiv

theorem skips_iff (hc : c ≠ 0) : (∃ reason, evaluateLockableOrder p now o c gas = .ok (.skip reason)) ↔ mcyclePrice o.maxPrice gas c < p := by
  constructor
  · rintro ⟨reason, h⟩
    by_contra hskip
    rw [evaluateLockableOrder] at h
    obtain ⟨_, -, h⟩ := bind_ok_iff.mp h
    simp only [if_neg hskip] at h
    obtain ⟨current, -, h⟩ := bind_ok_iff.mp h
    split_ifs at h
    all_goals
      obtain ⟨target, -, h⟩ := bind_ok_iff.mp h
      obtain ⟨expiry, -, h⟩ := bind_ok_iff.mp h
      cases h
  · intro hskip
    exact ⟨_, evaluateLockableOrder_skip hc hskip⟩

theorem le_of_proveAfterLockExpire {outcome : ProveAfterLockExpireOutcome}
    (h : evaluateLockExpiredOrder p o c = .ok (.proveAfterLockExpire outcome)) :
    p ≤ saturatingMul (collateralRewardIfLockedAndNotFulfilled o) ONE_MILLION / c.setWidth 256 := by
  rw [evaluateLockExpiredOrder] at h
  obtain ⟨_, -, h⟩ := bind_ok_iff.mp h
  by_contra hskip
  simp only [if_pos (BitVec.not_le.mp hskip)] at h
  cases h

end

/-- The limits are in order, and caps only lower them. Where they do not, the limit for locking is the number of cycles
that are worth their price, the limit without locking covers those that are worth the collateral, and an execution for
the one covers the other. -/
theorem execLimits_agree (config : PricingConfig) (o : Offer) (gas : U256) (skipMcycleLimit : Bool) (now : U64)
    (fulfillmentType : FulfillmentType) :
    calculateExecLimits config o gas skipMcycleLimit now fulfillmentType ≠ .error .assertion ∧
    ∀ limits, calculateExecLimits config o gas skipMcycleLimit now fulfillmentType = .ok limits →
      limits.proveLimit ≤ limits.preflightLimit ∧
      limits.preflightLimit ≤ (pricedLimits config o gas fulfillmentType).preflightLimit ∧
      limits.proveLimit ≤ (pricedLimits config o gas fulfillmentType).proveLimit ∧
      (limits.preflightLimit = (pricedLimits config o gas fulfillmentType).preflightLimit →
        limits.proveLimit = (pricedLimits config o gas fulfillmentType).proveLimit →
        (fulfillmentType = .lockAndFulfill →
          (∀ c now', 1 ≤ c →
            (c ≤ limits.proveLimit ↔ ¬∃ reason, evaluateLockableOrder config.minMcyclePrice now' o c gas = .ok (.skip reason))) ∧
          ∀ skipMcycleLimit' now' gas' limits',
            calculateExecLimits config o gas' skipMcycleLimit' now' .fulfillAfterLockExpire = .ok limits' →
              limits'.proveLimit ≤ limits.preflightLimit) ∧
        (fulfillmentType = .fulfillAfterLockExpire →
          ∀ c outcome, 1 ≤ c → evaluateLockExpiredOrder config.minMcyclePriceCollateralToken o c = .ok (.proveAfterLockExpire outcome) →
            c ≤ limits.proveLimit)) := by
  obtain hfail | ⟨limits, t, hok, hshows, hpriced⟩ := calculateExecLimits_cases config o gas skipMcycleLimit now fulfillmentType
  · rw [hfail]
    exact ⟨fun h => PricingError.noConfusion (Except.error.inj h), fun _ h => by cases h⟩
  rw [hok]
  refine ⟨fun h => (by cases h), fun limits' h => ?_⟩
  obtain rfl : limits = limits' := Except.ok.inj h
  have hlowered := t.lowered_calculateExecLimits
  refine ⟨hshows.ordered, ?_, ?_, fun hpreflight hprove => ⟨?_, ?_⟩⟩
  · rw [hshows.preflight, hpriced.preflight]
    exact hlowered.preflight
  · rw [hshows.prove, hpriced.prove]
    exact hlowered.prove
  · rintro rfl
    have hlimit : limits.proveLimit = ethBasedLimit config o gas := by
      rw [hprove, pricedLimits, if_neg (by decide)]
      split_ifs <;> rfl
    have hcollateral : collateralBasedLimit config o ≤ limits.preflightLimit := by
      rw [hpreflight, pricedLimits, if_neg (by decide)]
      by_cases hlt : collateralBasedLimit config o < ethBasedLimit config o gas
      · simpa [hlt] using BitVec.le_of_lt hlt
      · simp [hlt]
    refine ⟨fun c now' hc => ?_, fun skip' now' gas' limits' h' => ?_⟩
    · have hzero : c ≠ 0 := fun hz => by
        rw [hz] at hc
        exact absurd hc (by decide)
      rw [hlimit, skips_iff hzero]
      exact le_ethBasedLimit_iff hc
    · obtain hfail' | ⟨limits1, t', hok', hshows', hpriced'⟩ := calculateExecLimits_cases config o gas' skip' now' .fulfillAfterLockExpire
      · rw [hfail'] at h'
        cases h'
      · rw [hok'] at h'
        obtain rfl : limits1 = limits' := Except.ok.inj h'
        have hle := t'.lowered_calculateExecLimits.prove
        rw [← hshows'.prove, ← hpriced'.prove] at hle
        exact BitVec.le_trans hle hcollateral
  · rintro rfl c outcome hc haccept
    rw [hprove]
    exact le_collateralBasedLimit hc (le_of_proveAfterLockExpire haccept)

/-- Two million cycles are the limit, and worth the maximum price of 2 for a price of 1 per million. -/
theorem execLimits_agree_sample : (2000000 : U64) ≤ 2000000 ↔
    ¬∃ reason, evaluateLockableOrder 1 0 Offer.flatOffer 2000000 0 = .ok (.skip reason) :=
  ((((execLimits_agree ⟨100, none, 1, 1⟩ Offer.flatOffer 0 false 0 .lockAndFulfill).2 ⟨2000000, 2000000, .ethPricing 2 0 1⟩
    (by decide)).2.2.2 (by decide) (by decide)).1 rfl).1 2000000 0 (by decide)

end VerifiableCompute.Broker
