import VerifiableCompute.Indexer.Aggregation

/-! When the sums lose nothing. The first hour of a window is never added to the sums, and hours that
are over before the window begins are not recomputed, so that the sums are right only when there is
nothing to count in the one, and when the window reaches back to the other. -/

namespace VerifiableCompute.Indexer

open Lib Market MarketSummary List

/-! ### Hours -/

theorem getHourStart_le (t : ℕ) : getHourStart t ≤ t := Nat.div_mul_le_self t 3600

theorem dvd_getHourStart (t : ℕ) : 3600 ∣ getHourStart t := ⟨t / 3600, Nat.mul_comm _ _⟩

theorem getHourStart_of_dvd {t : ℕ} (h : 3600 ∣ t) : getHourStart t = t := Nat.div_mul_cancel h

theorem lt_getHourStart_add (t : ℕ) : t < getHourStart t + 3600 := by
  unfold getHourStart
  omega

theorem le_getHourStart {h t : ℕ} (hh : 3600 ∣ h) (hle : h ≤ t) : h ≤ getHourStart t := by
  unfold getHourStart
  omega

theorem iterHourlyPeriods_of_lt {n e : ℕ} (hn : 3600 ∣ n) (he : 3600 ∣ e) (h : e < n) : iterHourlyPeriods n e = [] := by
  rw [iterHourlyPeriods, getHourStart_of_dvd hn, getHourStart_of_dvd he, if_pos h]

theorem iterHourlyPeriods_of_le {n e : ℕ} (hn : 3600 ∣ n) (he : 3600 ∣ e) (h : n ≤ e) :
    iterHourlyPeriods n e = (n, getNextHour n) :: iterHourlyPeriods (n + 3600) e := by
  have hnext : 3600 ∣ n + 3600 := Dvd.dvd.add hn (dvd_refl 3600)
  rw [iterHourlyPeriods, getHourStart_of_dvd hn, getHourStart_of_dvd he, if_neg (by omega), range_succ_eq_map, map_cons, map_map, Nat.mul_zero,
    Nat.add_zero]
  congr 1
  by_cases hlt : e < n + 3600
  · rw [iterHourlyPeriods_of_lt hnext he hlt, show (e - n) / 3600 = 0 by omega]
    rfl
  · rw [iterHourlyPeriods, getHourStart_of_dvd hnext, getHourStart_of_dvd he, if_neg hlt, show (e - n) / 3600 = (e - (n + 3600)) / 3600 + 1 by omega]
    refine map_congr_left fun i _ => ?_
    have hi : n + 3600 * (i + 1) = n + 3600 + 3600 * i := by ring
    simp only [Function.comp_apply, Nat.succ_eq_add_one, hi]

/-- A run later than seven hours after the epoch recomputes the six hours before the current one. -/
theorem startHour_bounds {t : ℕ} (h : 25200 ≤ t) (ht : t < 2 ^ 63) :
    3600 ∣ startHour t ∧ 3600 ≤ startHour t ∧ startHour t + 21600 ≤ t ∧ ∀ n, 3600 ∣ n → n + 21600 ≤ t → n ≤ startHour t := by
  have hago : (t + 2 ^ 64 - 6 * 3600) % 2 ^ 64 = t - 21600 := by omega
  rw [startHour, hago]
  have hle := getHourStart_le (t - 21600)
  refine ⟨dvd_getHourStart _, le_getHourStart (dvd_refl 3600) (by omega), by omega, fun n hn hnt => le_getHourStart hn (by omega)⟩

/-! ### Counts -/

namespace EventTables

variable {t : EventTables}

theorem counted_self (a : ℕ) (k : Total) : t.counted a a k = 0 :=
  countP_eq_zero.mpr fun x _ => by simp

theorem counted_add {a b d : ℕ} (hab : a ≤ b) (hbd : b ≤ d) (k : Total) : t.counted a b k + t.counted b d k = t.counted a d k := by
  unfold counted
  induction t.timestamps k with
  | nil => rfl
  | cons x l ih =>
    simp only [countP_cons, decide_eq_true_eq]
    split_ifs <;> omega

theorem computePeriodSummary_total (hbound : ∀ k, ∀ x ∈ t.timestamps k, x < 2 ^ 64) {a b : ℕ} (hab : a ≤ b) (hb : b < 2 ^ 63) :
    (t.computePeriodSummary a b).total = t.counted a b := by
  funext k
  refine countP_congr fun x hx => ?_
  have hx := hbound k x hx
  rw [asI64_of_lt hb, asI64_of_lt (hab.trans_lt hb), decide_eq_true_eq, decide_eq_true_eq]
  by_cases hlt : x < 2 ^ 63
  · rw [asI64_of_lt hlt]
    omega
  · have hneg := asI64_of_le (Nat.not_lt.mp hlt) hx
    omega

end EventTables

/-! ### Rows -/

theorem latest_mem {rows : List MarketSummary} {l : MarketSummary} (h : latest rows = some l) : l ∈ rows := by
  induction rows generalizing l with
  | nil => cases h
  | cons row rows ih =>
    rw [latest] at h
    split at h
    next => exact Option.some.inj h ▸ mem_cons_self
    next l' hl' =>
      split_ifs at h
      · exact Option.some.inj h ▸ mem_cons_self
      · exact mem_cons_of_mem _ (ih (Option.some.inj h ▸ hl'))

theorem latest_none {rows : List MarketSummary} (h : latest rows = none) : rows = [] := by
  cases rows with
  | nil => rfl
  | cons row rows =>
    rw [latest] at h
    split at h
    next => cases h
    next => split_ifs at h

theorem le_latest {rows : List MarketSummary} {l : MarketSummary} (hbound : ∀ r ∈ rows, r.periodTimestamp < 2 ^ 63) (h : latest rows = some l) :
    ∀ r ∈ rows, r.periodTimestamp ≤ l.periodTimestamp := by
  induction rows generalizing l with
  | nil => cases h
  | cons row rows ih =>
    have hrow := hbound row mem_cons_self
    have hrows (r : MarketSummary) (hr : r ∈ rows) := hbound r (mem_cons_of_mem _ hr)
    rw [latest] at h
    split at h
    next hnone =>
      cases h
      rw [latest_none hnone]
      exact fun r hr => mem_singleton.mp hr ▸ le_rfl
    next l' hl' =>
      have hle := ih hrows hl'
      rw [asI64_of_lt (hrows l' (latest_mem hl')), asI64_of_lt hrow] at h
      split_ifs at h with hlt
      · cases h
        intro r hr
        obtain rfl | hr := mem_cons.mp hr
        · exact le_rfl
        · exact (hle r hr).trans (by omega)
      · cases h
        intro r hr
        obtain rfl | hr := mem_cons.mp hr
        · omega
        · exact hle r hr

def HasTotal (rows : List MarketSummary) (h : ℕ) (total : Total → ℕ) : Prop :=
  ∃ r, findRow MarketSummary.periodTimestamp rows h = some r ∧ r.total = total

theorem HasTotal.upsert_of_ne {rows : List MarketSummary} {h : ℕ} {total : Total → ℕ} {row : MarketSummary} (hrow : HasTotal rows h total)
    (hne : h ≠ row.periodTimestamp) : HasTotal (upsert periodTimestamp rows row) h total := by
  obtain ⟨r, hr, htotal⟩ := hrow
  exact ⟨r, (findRow_upsert_of_ne hne).trans hr, htotal⟩

theorem hasTotal_upsert (rows : List MarketSummary) (row : MarketSummary) :
    HasTotal (upsert periodTimestamp rows row) row.periodTimestamp row.total :=
  ⟨row, findRow_upsert_self rows row, rfl⟩

/-! ### Blocks -/

/-- New rows are of later blocks than the last one. -/
structure Later (c : Chain) (db db' : Db) : Prop where
  rows : ∀ k, ∃ new, db'.tables.timestamps k = db.tables.timestamps k ++ new ∧
    ∀ x ∈ new, x < 2 ^ 64 ∧ ∀ last, db.lastBlock = some last → c.blockTimestamp last < x
  lastBlock : db'.lastBlock = db.lastBlock ∨ ∃ last, db'.lastBlock = some last ∧ last ≤ c.height ∧ ∀ before, db.lastBlock = some before → before < last

section Blocks

variable {c : Chain} {start : ℕ} {db db' : Db}

theorem exists_log_of_mem {R : Type} {row : TxLog → Option R} {time : R → ℕ} {logs : List TxLog} {x : ℕ}
    (h : x ∈ (logs.filterMap row).map time) (hrow : ∀ log, ∀ r ∈ row log, time r = log.blockTimestamp) :
    ∃ log ∈ logs, x = log.blockTimestamp := by
  obtain ⟨r, hr, rfl⟩ := mem_map.mp h
  obtain ⟨log, hlog, hlogRow⟩ := mem_filterMap.mp hr
  exact ⟨log, hlog, hrow log r hlogRow⟩

theorem timestamps_rows {k : Total} {logs : List TxLog} {x : ℕ} (h : x ∈ (c.rows logs).timestamps k) : ∃ log ∈ logs, x = log.blockTimestamp := by
  cases k
  all_goals
    refine exists_log_of_mem h fun log r hr => ?_
    simp only [TxLog.fulfilledRow, TxLog.submittedRow, TxLog.lockedRow, TxLog.slashedRow] at hr
    split at hr
    next => cases hr; rfl
    next => cases hr

theorem mem_timestamps_of_isPrefix {rows all : EventTables} (h : rows.IsPrefix all) {k : Total} {x : ℕ} (hx : x ∈ rows.timestamps k) :
    x ∈ all.timestamps k := by
  cases k with
  | fulfilled => exact map_subset _ h.fulfilled.subset hx
  | requestsSubmittedOnchain => exact map_subset _ h.submitted.subset hx
  | requestsLocked => exact map_subset _ h.locked.subset hx
  | requestsSlashed => exact map_subset _ h.slashed.subset hx

theorem map_insertAll {ρ κ : Type} [DecidableEq κ] (key : ρ → κ) (time : ρ → ℕ) (table rows : List ρ) :
    ∃ new, (insertAll key table rows).map time = table.map time ++ new ∧ ∀ x ∈ new, x ∈ rows.map time := by
  obtain ⟨new, hnew, hmem⟩ := @insertAll_eq_append _ _ _ key table rows
  exact ⟨new.map time, by rw [hnew, map_append], fun x hx => map_subset _ hmem hx⟩

theorem timestamps_insert (t rows : EventTables) (k : Total) :
    ∃ new, (t.insert rows).timestamps k = t.timestamps k ++ new ∧ ∀ x ∈ new, x ∈ rows.timestamps k := by
  cases k with
  | fulfilled => exact map_insertAll _ _ _ _
  | requestsSubmittedOnchain => exact map_insertAll _ _ _ _
  | requestsLocked => exact map_insertAll _ _ _ _
  | requestsSlashed => exact map_insertAll _ _ _ _

theorem later_insert {rows : EventTables} {toBlock : ℕ} (hto : toBlock ≤ c.height)
    (hrows : rows.IsPrefix (c.rows (c.fetchLogs (db.nextBlock start) (toBlock + 1)))) (k : Total) :
    ∃ new, (db.tables.insert rows).timestamps k = db.tables.timestamps k ++ new ∧
      ∀ x ∈ new, x < 2 ^ 64 ∧ ∀ last, db.lastBlock = some last → c.blockTimestamp last < x := by
  obtain ⟨new, hnew, hmem⟩ := timestamps_insert db.tables rows k
  refine ⟨new, hnew, fun x hx => ?_⟩
  obtain ⟨log, hlog, rfl⟩ := timestamps_rows (mem_timestamps_of_isPrefix hrows (hmem x hx))
  obtain ⟨b, hnext, hb, -, htime⟩ := c.mem_fetchLogs hlog
  rw [htime]
  refine ⟨c.timestamp_lt_of_le (by omega), fun last hlast => c.strict ?_ (by omega)⟩
  simp only [Db.nextBlock, hlast] at hnext
  omega

theorem Advance.later (h : Advance c start db db') : Later c db db' := by
  cases h with
  | interrupted toBlock rows hnext hto hrows => exact ⟨later_insert hto hrows, .inl rfl⟩
  | unrecorded counts toBlock hnext hto => exact ⟨later_insert hto (.refl _), .inl rfl⟩
  | processed counts toBlock hnext hto =>
    refine ⟨later_insert hto (.refl _), .inr ⟨toBlock, rfl, hto, fun before hbefore => ?_⟩⟩
    simp only [Db.nextBlock, hbefore] at hnext
    omega

theorem Later.counted (h : Later c db db') {last : ℕ} (hlast : db.lastBlock = some last) {a b : ℕ} (hb : b ≤ c.blockTimestamp last) :
    db'.tables.counted a b = db.tables.counted a b := by
  funext k
  obtain ⟨new, hnew, hlater⟩ := h.rows k
  have hnone : new.countP (fun x => a ≤ x ∧ x < b) = 0 := countP_eq_zero.mpr fun x hx => by
    have hlt := (hlater x hx).2 last hlast
    rw [decide_eq_true_eq]
    omega
  rw [EventTables.counted, EventTables.counted, hnew, countP_append, hnone, Nat.add_zero]

end Blocks

/-! ### Windows -/

/-- A run is about a time that is late enough, its window reaches back to the latest sum, or to the first hour when there is none, and
there is nothing to count in the first hour of its window. -/
structure Steady (c : Chain) (s : State) (toBlock : ℕ) : Prop where
  late : 25200 ≤ c.blockTimestamp toBlock
  early : c.blockTimestamp toBlock + 1 < 2 ^ 63
  continues : ∀ l, latest s.allTime = some l → startHour (c.blockTimestamp toBlock) ≤ l.periodTimestamp
  first : s.allTime = [] → ∀ r ∈ s.hourly, startHour (c.blockTimestamp toBlock) ≤ r.periodTimestamp
  quiet : ∀ k, s.db.tables.counted (startHour (c.blockTimestamp toBlock)) (startHour (c.blockTimestamp toBlock) + 3600) k = 0

/-- The hours from the first one on and before `stop` are summarised and summed up. -/
def Summed (s : State) (h₀ stop : ℕ) : Prop :=
  ∀ h, h₀ ≤ h → 3600 ∣ h → h < stop → HasTotal s.hourly h (s.db.tables.counted h (h + 3600)) ∧ HasTotal s.allTime h (s.db.tables.counted h₀ (h + 3600))

structure Base (c : Chain) (s : State) : Prop where
  bounded : ∀ k, ∀ x ∈ s.db.tables.timestamps k, x < 2 ^ 64
  height : ∀ last, s.db.lastBlock = some last → last ≤ c.height
  first : ∀ h₀, s.firstHour = some h₀ → 3600 ∣ h₀ ∧ ∃ last, s.db.lastBlock = some last ∧ h₀ + 21600 ≤ c.blockTimestamp last
  allTime : ∀ r ∈ s.allTime, 3600 ∣ r.periodTimestamp ∧ r.periodTimestamp < 2 ^ 63 ∧
    (∃ last, s.db.lastBlock = some last ∧ r.periodTimestamp ≤ c.blockTimestamp last) ∧ ∃ h₀, s.firstHour = some h₀ ∧ h₀ ≤ r.periodTimestamp
  settled : ∀ l h₀, latest s.allTime = some l → s.firstHour = some h₀ → Summed s h₀ l.periodTimestamp
  done : ∀ b, s.lastAggregationBlock = some b → ∃ r ∈ s.allTime, r.periodTimestamp = getHourStart (c.blockTimestamp b)

/-- A run has come to the hour `n`. -/
structure Window (c : Chain) (s : State) (toBlock n : ℕ) : Prop where
  last : ∃ last, s.db.lastBlock = some last ∧ toBlock ≤ last
  late : 25200 ≤ c.blockTimestamp toBlock
  early : c.blockTimestamp toBlock + 1 < 2 ^ 63
  quiet : ∀ k, s.db.tables.counted (startHour (c.blockTimestamp toBlock)) (startHour (c.blockTimestamp toBlock) + 3600) k = 0
  le : ∀ r ∈ s.allTime, r.periodTimestamp ≤ getHourStart (c.blockTimestamp toBlock)
  dvd : 3600 ∣ n
  start_le : startHour (c.blockTimestamp toBlock) ≤ n

structure HourlyWindow (c : Chain) (s : State) (toBlock n : ℕ) : Prop extends Window c s toBlock n where
  continues : ∀ l, latest s.allTime = some l → startHour (c.blockTimestamp toBlock) ≤ l.periodTimestamp
  first : s.allTime = [] → ∀ r ∈ s.hourly, startHour (c.blockTimestamp toBlock) ≤ r.periodTimestamp
  written : ∀ h, startHour (c.blockTimestamp toBlock) ≤ h → 3600 ∣ h → h < n → h + 3600 ≤ c.blockTimestamp toBlock →
    HasTotal s.hourly h (s.db.tables.counted h (h + 3600))
  firstHour : (∃ h₀, s.firstHour = some h₀ ∧ h₀ ≤ startHour (c.blockTimestamp toBlock)) ∨ s.hourly = [] ∧ n = startHour (c.blockTimestamp toBlock)

/-- All hours that are over are summarised, and those before `n` are summed up. -/
structure AllTimeWindow (c : Chain) (s : State) (toBlock : ℕ) (summaries : List MarketSummary) (cumulative : MarketSummary) (n h₀ : ℕ) : Prop
    extends Window c s toBlock n where
  firstHour : s.firstHour = some h₀
  first_le : h₀ ≤ startHour (c.blockTimestamp toBlock)
  hours : ∀ h, h₀ ≤ h → 3600 ∣ h → h + 3600 ≤ c.blockTimestamp toBlock → HasTotal s.hourly h (s.db.tables.counted h (h + 3600))
  found : ∀ h, startHour (c.blockTimestamp toBlock) < h → 3600 ∣ h → h + 3600 ≤ c.blockTimestamp toBlock →
    ∃ r, summaries.find? (fun r => r.periodTimestamp = h) = some r ∧ r.total = s.db.tables.counted h (h + 3600)
  unfound : summaries.find? (fun r => r.periodTimestamp = startHour (c.blockTimestamp toBlock)) = none
  cumulative : n ≤ getHourStart (c.blockTimestamp toBlock) → cumulative.total = s.db.tables.counted h₀ n
  sums : ∀ h, h₀ ≤ h → 3600 ∣ h → h < n → h + 3600 ≤ c.blockTimestamp toBlock → HasTotal s.allTime h (s.db.tables.counted h₀ (h + 3600))
  rows : ∀ h, startHour (c.blockTimestamp toBlock) ≤ h → 3600 ∣ h → h < n → ∃ r ∈ s.allTime, r.periodTimestamp = h

def TaskOk (c : Chain) (s : State) : Task → Prop
  | .idle => True
  | .hourly toBlock todo => ∃ n, todo = iterHourlyPeriods n (getHourStart (c.blockTimestamp toBlock)) ∧ HourlyWindow c s toBlock n
  | .allTime toBlock summaries cumulative todo =>
    ∃ n h₀, todo = iterHourlyPeriods n (getHourStart (c.blockTimestamp toBlock)) ∧ AllTimeWindow c s toBlock summaries cumulative n h₀

section Steps

variable {c : Chain} {start : ℕ} {s : State}

theorem firstHour_eq_some {h₀ : ℕ} : s.firstHour = some h₀ ↔ (∃ r ∈ s.hourly, r.periodTimestamp = h₀) ∧ ∀ r ∈ s.hourly, h₀ ≤ r.periodTimestamp := by
  rw [State.firstHour, min?_eq_some_iff]
  simp only [mem_map, forall_exists_index, and_imp, forall_apply_eq_imp_iff₂]

theorem firstHour_upsert {h₀ : ℕ} {row : MarketSummary} (h : s.firstHour = some h₀) (hle : h₀ ≤ row.periodTimestamp) :
    (s.upsertHourly row).firstHour = some h₀ := by
  obtain ⟨⟨r, hr, hkey⟩, hmin⟩ := firstHour_eq_some.mp h
  refine firstHour_eq_some.mpr ⟨?_, fun r' hr' => ?_⟩
  · obtain ⟨r', hr', hkey'⟩ := @key_mem_upsert _ _ _ periodTimestamp _ row _ hr
    exact ⟨r', hr', hkey'.trans hkey⟩
  · obtain rfl | hr' := mem_upsert hr'
    · exact hle
    · exact hmin r' hr'

theorem firstHour_of_empty {row : MarketSummary} (h : s.hourly = []) : (s.upsertHourly row).firstHour = some row.periodTimestamp := by
  rw [State.firstHour, State.upsertHourly, h]
  rfl

/-! ### Processing blocks -/

variable {db : Db}

theorem Later.last (h : Later c s.db db) {last : ℕ} (hlast : s.db.lastBlock = some last) :
    ∃ last', db.lastBlock = some last' ∧ last ≤ last' ∧ c.blockTimestamp last ≤ c.blockTimestamp last' := by
  obtain hsame | ⟨last', hlast', hheight, hlt⟩ := h.lastBlock
  · exact ⟨last, hsame.trans hlast, le_rfl, le_rfl⟩
  · have hle := (hlt last hlast).le
    exact ⟨last', hlast', hle, c.timestamp_le hle hheight⟩

theorem Later.summed (h : Later c s.db db) {h₀ stop last : ℕ} (hlast : s.db.lastBlock = some last) (hstop : stop ≤ c.blockTimestamp last)
    (hdvd : 3600 ∣ stop) (hs : Summed s h₀ stop) : Summed { s with db } h₀ stop := by
  intro hour hfirst hhour hlt
  have hover : hour + 3600 ≤ c.blockTimestamp last := by omega
  rw [h.counted hlast hover, h.counted hlast hover]
  exact hs hour hfirst hhour hlt

theorem Base.blocks (hs : Base c s) (h : Later c s.db db) : Base c { s with db } where
  bounded := by
    intro k x hx
    obtain ⟨new, hnew, hlater⟩ := h.rows k
    obtain hx | hx := mem_append.mp (hnew ▸ hx)
    · exact hs.bounded k x hx
    · exact (hlater x hx).1
  height := by
    intro last hlast
    obtain hsame | ⟨last', hlast', hheight, -⟩ := h.lastBlock
    · exact hs.height last (hsame ▸ hlast)
    · exact Option.some.inj (hlast'.symm.trans hlast) ▸ hheight
  first := by
    intro h₀ hfirst
    obtain ⟨hdvd, last, hlast, hle⟩ := hs.first h₀ hfirst
    obtain ⟨last', hlast', -, htime⟩ := h.last hlast
    exact ⟨hdvd, last', hlast', hle.trans htime⟩
  allTime := by
    intro r hr
    obtain ⟨hdvd, hlt, ⟨last, hlast, hle⟩, hfirst⟩ := hs.allTime r hr
    obtain ⟨last', hlast', -, htime⟩ := h.last hlast
    exact ⟨hdvd, hlt, ⟨last', hlast', hle.trans htime⟩, hfirst⟩
  settled := by
    intro l h₀ hl hfirst
    obtain ⟨hdvd, -, ⟨last, hlast, hle⟩, -⟩ := hs.allTime l (latest_mem hl)
    exact h.summed hlast hle hdvd (hs.settled l h₀ hl hfirst)
  done := hs.done

section Window

variable {toBlock n : ℕ}

theorem Window.time (hw : Window c s toBlock n) (hs : Base c s) : ∃ last, s.db.lastBlock = some last ∧ c.blockTimestamp toBlock ≤ c.blockTimestamp last := by
  obtain ⟨last, hlast, hle⟩ := hw.last
  exact ⟨last, hlast, c.timestamp_le hle (hs.height last hlast)⟩

theorem Window.hours (hw : Window c s toBlock n) : 3600 ∣ startHour (c.blockTimestamp toBlock) ∧ 3600 ≤ startHour (c.blockTimestamp toBlock) ∧
    startHour (c.blockTimestamp toBlock) + 21600 ≤ c.blockTimestamp toBlock := by
  have hearly := hw.early
  obtain ⟨hdvd, hpos, hle, -⟩ := startHour_bounds hw.late (by omega)
  exact ⟨hdvd, hpos, hle⟩

theorem Window.blocks (hw : Window c s toBlock n) (hs : Base c s) (h : Later c s.db db) : Window c { s with db } toBlock n where
  last := by
    obtain ⟨last, hlast, hle⟩ := hw.last
    obtain ⟨last', hlast', hle', -⟩ := h.last hlast
    exact ⟨last', hlast', hle.trans hle'⟩
  late := hw.late
  early := hw.early
  quiet := by
    obtain ⟨last, hlast, htime⟩ := hw.time hs
    obtain ⟨-, -, hle⟩ := hw.hours
    intro k
    rw [h.counted hlast (by omega)]
    exact hw.quiet k
  le := hw.le
  dvd := hw.dvd
  start_le := hw.start_le

theorem HourlyWindow.blocks (hw : HourlyWindow c s toBlock n) (hs : Base c s) (h : Later c s.db db) : HourlyWindow c { s with db } toBlock n where
  toWindow := hw.toWindow.blocks hs h
  continues := hw.continues
  first := hw.first
  written := by
    obtain ⟨last, hlast, htime⟩ := hw.time hs
    intro hour hstart hdvd hlt hover
    rw [h.counted hlast (hover.trans htime)]
    exact hw.written hour hstart hdvd hlt hover
  firstHour := hw.firstHour

theorem AllTimeWindow.blocks {summaries : List MarketSummary} {cumulative : MarketSummary} {h₀ : ℕ} (hw : AllTimeWindow c s toBlock summaries cumulative n h₀)
    (hs : Base c s) (h : Later c s.db db) : AllTimeWindow c { s with db } toBlock summaries cumulative n h₀ where
  toWindow := hw.toWindow.blocks hs h
  firstHour := hw.firstHour
  first_le := hw.first_le
  hours := by
    obtain ⟨last, hlast, htime⟩ := hw.time hs
    intro hour hfirst hdvd hover
    rw [h.counted hlast (hover.trans htime)]
    exact hw.hours hour hfirst hdvd hover
  found := by
    obtain ⟨last, hlast, htime⟩ := hw.time hs
    intro hour hstart hdvd hover
    rw [h.counted hlast (hover.trans htime)]
    exact hw.found hour hstart hdvd hover
  unfound := hw.unfound
  cumulative := by
    obtain ⟨last, hlast, htime⟩ := hw.time hs
    intro hle
    rw [h.counted hlast (hle.trans ((getHourStart_le _).trans htime))]
    exact hw.cumulative hle
  sums := by
    obtain ⟨last, hlast, htime⟩ := hw.time hs
    intro hour hfirst hdvd hlt hover
    rw [h.counted hlast (hover.trans htime)]
    exact hw.sums hour hfirst hdvd hlt hover
  rows := hw.rows

end Window

theorem TaskOk.blocks {task : Task} (ht : TaskOk c s task) (hs : Base c s) (h : Later c s.db db) : TaskOk c { s with db } task := by
  cases task with
  | idle => trivial
  | hourly toBlock todo =>
    obtain ⟨n, htodo, hw⟩ := ht
    exact ⟨n, htodo, hw.blocks hs h⟩
  | allTime toBlock summaries cumulative todo =>
    obtain ⟨n, h₀, htodo, hw⟩ := ht
    exact ⟨n, h₀, htodo, hw.blocks hs h⟩

/-! ### Steps of a run -/

/-- What only changes the task or the last block that was aggregated. -/
theorem Base.of_task (hs : Base c s) (task : Task) : Base c { s with task } :=
  ⟨hs.bounded, hs.height, hs.first, hs.allTime, hs.settled, hs.done⟩

theorem aggregate_ok (hs : Base c s) {toBlock : ℕ} (hlast : s.db.lastBlock = some toBlock) (hsteady : Steady c s toBlock) :
    HourlyWindow c s toBlock (startHour (c.blockTimestamp toBlock)) where
  last := ⟨toBlock, hlast, le_rfl⟩
  late := hsteady.late
  early := hsteady.early
  quiet := hsteady.quiet
  le := by
    intro r hr
    obtain ⟨hdvd, -, ⟨last, hlast', hle⟩, -⟩ := hs.allTime r hr
    obtain rfl := Option.some.inj (hlast'.symm.trans hlast)
    exact le_getHourStart hdvd hle
  dvd := dvd_getHourStart _
  start_le := le_rfl
  continues := hsteady.continues
  first := hsteady.first
  written := fun h hstart _ hlt _ => absurd hlt (by omega)
  firstHour := by
    have hearly := hsteady.early
    cases hfirst : s.firstHour with
    | none =>
      rw [State.firstHour, min?_eq_none_iff, map_eq_nil_iff] at hfirst
      exact .inr ⟨hfirst, rfl⟩
    | some h₀ =>
      obtain ⟨hdvd, last, hlast', hle⟩ := hs.first h₀ hfirst
      obtain rfl := Option.some.inj (hlast'.symm.trans hlast)
      obtain ⟨-, -, -, hmax⟩ := startHour_bounds hsteady.late (by omega)
      exact .inl ⟨h₀, rfl, hmax h₀ hdvd hle⟩

section Hour

variable {toBlock n : ℕ}

theorem Window.summary (hw : Window c s toBlock n) (hs : Base c s) (hover : n + 3600 ≤ c.blockTimestamp toBlock) :
    HasTotal (s.upsertHourly (s.db.tables.computePeriodSummary n (getNextHour n))).hourly n (s.db.tables.counted n (n + 3600)) := by
  have hearly := hw.early
  have hnext : getNextHour n = n + 3600 := by
    rw [getNextHour, getHourStart_of_dvd hw.dvd]
    omega
  have htotal : (s.db.tables.computePeriodSummary n (getNextHour n)).total = s.db.tables.counted n (n + 3600) := by
    rw [hnext]
    exact EventTables.computePeriodSummary_total hs.bounded (by omega) (by omega)
  rw [← htotal]
  exact hasTotal_upsert _ _

theorem HourlyWindow.first_of_latest (hw : HourlyWindow c s toBlock n) (hs : Base c s) {r : MarketSummary} (hr : r ∈ s.allTime) :
    ∃ h₀, s.firstHour = some h₀ ∧ h₀ ≤ startHour (c.blockTimestamp toBlock) := by
  obtain hfirst | ⟨hempty, -⟩ := hw.firstHour
  · exact hfirst
  · obtain ⟨-, -, -, h₀, hfirst, -⟩ := hs.allTime r hr
    rw [State.firstHour, hempty] at hfirst
    cases hfirst

theorem HourlyWindow.firstHour_upsert (hw : HourlyWindow c s toBlock n) {row : MarketSummary} (hrow : row.periodTimestamp = n) :
    ∃ h₀, (s.upsertHourly row).firstHour = some h₀ ∧ h₀ ≤ startHour (c.blockTimestamp toBlock) ∧
      (s.firstHour = some h₀ ∨ s.hourly = [] ∧ h₀ = startHour (c.blockTimestamp toBlock)) := by
  obtain ⟨h₀, hfirst, hle⟩ | ⟨hempty, hn⟩ := hw.firstHour
  · have hstart := hw.start_le
    exact ⟨h₀, Indexer.firstHour_upsert hfirst (by omega), hle, .inl hfirst⟩
  · exact ⟨n, (firstHour_of_empty hempty).trans (congrArg some hrow), hn.le, .inr ⟨hempty, hn⟩⟩

theorem Base.upsertHourly (hs : Base c s) (hw : HourlyWindow c s toBlock n) :
    Base c (s.upsertHourly (s.db.tables.computePeriodSummary n (getNextHour n))) where
  bounded := hs.bounded
  height := hs.height
  first := by
    intro h₀ hfirst
    obtain ⟨h0', hfirst', -, hcase⟩ := @HourlyWindow.firstHour_upsert _ _ _ _ hw (s.db.tables.computePeriodSummary n (getNextHour n)) rfl
    obtain rfl := Option.some.inj (hfirst.symm.trans hfirst')
    obtain hold | ⟨-, hstart⟩ := hcase
    · exact hs.first h₀ hold
    · obtain ⟨last, hlast, htime⟩ := hw.time hs
      obtain ⟨hdvd, -, hbefore⟩ := hw.hours
      exact ⟨hstart ▸ hdvd, last, hlast, by omega⟩
  allTime := by
    intro r hr
    obtain ⟨hdvd, hlt, hlast, h₀, hfirst, hfirst_le⟩ := hs.allTime r hr
    obtain ⟨h0', hfirst', hle'⟩ := hw.first_of_latest hs hr
    obtain rfl := Option.some.inj (hfirst'.symm.trans hfirst)
    have hstart := hw.start_le
    exact ⟨hdvd, hlt, hlast, h0', firstHour_upsert hfirst (hle'.trans hstart), hfirst_le⟩
  settled := by
    intro l h₀ hl hfirst hour hfirst_le hdvd hlt
    obtain ⟨h0', hold, hle'⟩ := hw.first_of_latest hs (latest_mem hl)
    have hstart := hw.start_le
    obtain rfl := Option.some.inj ((firstHour_upsert hold (hle'.trans hstart)).symm.trans hfirst)
    obtain ⟨hhour, hsum⟩ := hs.settled l h0' hl hold hour hfirst_le hdvd hlt
    refine ⟨?_, hsum⟩
    by_cases heq : hour = n
    · have hlatest := hw.le l (latest_mem hl)
      obtain ⟨hl_dvd, -⟩ := hs.allTime l (latest_mem hl)
      have hend := getHourStart_le (c.blockTimestamp toBlock)
      rw [heq]
      exact hw.summary hs (by omega)
    · exact hhour.upsert_of_ne heq
  done := hs.done

section

variable (hw : HourlyWindow c s toBlock n) (hs : Base c s)

include hw hs

theorem HourlyWindow.next :
    HourlyWindow c (s.upsertHourly (s.db.tables.computePeriodSummary n (getNextHour n))) toBlock (n + 3600) where
  last := hw.last
  late := hw.late
  early := hw.early
  quiet := hw.quiet
  le := hw.le
  dvd := Dvd.dvd.add hw.dvd (dvd_refl 3600)
  start_le := hw.start_le.trans (Nat.le_add_right _ _)
  continues := hw.continues
  first := by
    intro hnone r hr
    obtain rfl | hr := mem_upsert hr
    · exact hw.start_le
    · exact hw.first hnone r hr
  written := by
    intro hour hstart hdvd hlt hover
    by_cases heq : hour = n
    · rw [heq]
      exact hw.summary hs (heq ▸ hover)
    · have hn := hw.dvd
      exact (hw.written hour hstart hdvd (by omega) hover).upsert_of_ne heq
  firstHour := by
    obtain ⟨h₀, hfirst, hfirst_le, -⟩ := @HourlyWindow.firstHour_upsert _ _ _ _ hw (s.db.tables.computePeriodSummary n (getNextHour n)) rfl
    exact .inl ⟨h₀, hfirst, hfirst_le⟩

theorem HourlyWindow.settled {h₀ : ℕ} (hfirst : s.firstHour = some h₀) {hour : ℕ} (hle : h₀ ≤ hour) (hdvd : 3600 ∣ hour)
    (hlt : hour < startHour (c.blockTimestamp toBlock)) : HasTotal s.hourly hour (s.db.tables.counted hour (hour + 3600)) ∧
      HasTotal s.allTime hour (s.db.tables.counted h₀ (hour + 3600)) := by
  obtain ⟨hstart, -⟩ := hw.hours
  cases hl : latest s.allTime with
  | none =>
    obtain ⟨⟨r, hr, hperiod⟩, -⟩ := firstHour_eq_some.mp hfirst
    have hbefore := hw.first (latest_none hl) r hr
    omega
  | some l =>
    have hcontinues := hw.continues l hl
    exact hs.settled l h₀ hl hfirst hour hle hdvd (by omega)

theorem HourlyWindow.hours_over (hn : getHourStart (c.blockTimestamp toBlock) < n) {h₀ : ℕ}
    (hfirst : s.firstHour = some h₀) (hour : ℕ) (hfirst_le : h₀ ≤ hour) (hdvd : 3600 ∣ hour) (hover : hour + 3600 ≤ c.blockTimestamp toBlock) :
    HasTotal s.hourly hour (s.db.tables.counted hour (hour + 3600)) := by
  by_cases hstart : startHour (c.blockTimestamp toBlock) ≤ hour
  · have hend := lt_getHourStart_add (c.blockTimestamp toBlock)
    exact hw.written hour hstart hdvd (by omega) hover
  · exact (hw.settled hs hfirst hfirst_le hdvd (by omega)).1

/-- A run that reaches back to the latest sum builds on the sum of the hour before its window. -/
theorem HourlyWindow.base {h₀ : ℕ} (hfirst : s.firstHour = some h₀) (hle : h₀ ≤ startHour (c.blockTimestamp toBlock)) :
    (s.baseSummary (startHour (c.blockTimestamp toBlock))).total = s.db.tables.counted h₀ (startHour (c.blockTimestamp toBlock)) := by
  obtain ⟨hdvd, hpos, -⟩ := hw.hours
  obtain ⟨hfirst_dvd, -⟩ := hs.first h₀ hfirst
  have hbefore : startHour (c.blockTimestamp toBlock) - 3600 + 3600 = startHour (c.blockTimestamp toBlock) := by omega
  by_cases heq : h₀ = startHour (c.blockTimestamp toBlock)
  · have hnone : findRow periodTimestamp s.allTime (startHour (c.blockTimestamp toBlock) - 3600) = none := by
      cases hrow : findRow periodTimestamp s.allTime (startHour (c.blockTimestamp toBlock) - 3600) with
      | none => rfl
      | some r =>
        obtain ⟨hr, hperiod⟩ := findRow_mem hrow
        obtain ⟨-, -, -, h0', hfirst', hle'⟩ := hs.allTime r hr
        have hsame := Option.some.inj (hfirst'.symm.trans hfirst)
        omega
    rw [State.baseSummary, hnone, heq]
    funext k
    exact (EventTables.counted_self _ k).symm
  · have hsum : HasTotal s.allTime (startHour (c.blockTimestamp toBlock) - 3600)
        (s.db.tables.counted h₀ (startHour (c.blockTimestamp toBlock) - 3600 + 3600)) :=
      (hw.settled hs hfirst (by omega) (by omega) (by omega)).2
    obtain ⟨r, hr, htotal⟩ := hsum
    rw [State.baseSummary, hr]
    exact htotal.trans (by rw [hbefore])

theorem HourlyWindow.actualStartHour :
    s.actualStartHour (startHour (c.blockTimestamp toBlock)) = startHour (c.blockTimestamp toBlock) := by
  rw [State.actualStartHour]
  cases hl : latest s.allTime with
  | none => rfl
  | some l =>
    have hcontinues := hw.continues l hl
    obtain ⟨-, hbound, -⟩ := hs.allTime l (latest_mem hl)
    exact if_neg (by omega)

end

/-- The summaries that are read for the sums, without the first hour. -/
theorem find_byRange {after before hour : ℕ} (hbefore : before < 2 ^ 63) (hafter : after < 2 ^ 63) (hhour : hour < 2 ^ 63) :
    (s.getHourlyMarketSummariesByRange after before).find? (fun r => r.periodTimestamp = hour) =
      if after < hour ∧ hour < before then findRow periodTimestamp s.hourly hour else none := by
  rw [State.getHourlyMarketSummariesByRange, find?_filter]
  split_ifs with h
  · rw [findRow]
    congr 1
    funext r
    by_cases hr : r.periodTimestamp = hour
    · simp [hr, asI64_of_lt hbefore, asI64_of_lt hafter, asI64_of_lt hhour, h]
    · simp [hr]
  · refine find?_eq_none.mpr fun r _ => ?_
    by_cases hr : r.periodTimestamp = hour
    · simpa [hr, asI64_of_lt hbefore, asI64_of_lt hafter, asI64_of_lt hhour] using h
    · simp [hr]

theorem startAllTime_ok (hs : Base c s) (hw : HourlyWindow c s toBlock n) (hn : getHourStart (c.blockTimestamp toBlock) < n) :
    ∃ h₀, AllTimeWindow c s toBlock
      (s.getHourlyMarketSummariesByRange (startHour (c.blockTimestamp toBlock)) (getHourStart (c.blockTimestamp toBlock) + 1))
      (s.baseSummary (startHour (c.blockTimestamp toBlock))) (startHour (c.blockTimestamp toBlock)) h₀ := by
  obtain ⟨hdvd, hpos, hwindow⟩ := hw.hours
  have hearly := hw.early
  have hend := getHourStart_le (c.blockTimestamp toBlock)
  have hend' := lt_getHourStart_add (c.blockTimestamp toBlock)
  obtain ⟨h₀, hfirst, hfirst_le⟩ : ∃ h₀, s.firstHour = some h₀ ∧ h₀ ≤ startHour (c.blockTimestamp toBlock) := by
    obtain hfirst | ⟨-, hstart⟩ := hw.firstHour
    · exact hfirst
    · omega
  have hover := hw.hours_over hs hn hfirst
  refine ⟨h₀, ⟨⟨hw.last, hw.late, hw.early, hw.quiet, hw.le, hdvd, le_rfl⟩, hfirst, hfirst_le, hover, fun hour hstart hhour hlate => ?_, ?_,
    fun _ => hw.base hs hfirst hfirst_le, fun hour hle hhour hlt hlate => ?_, fun hour hstart _ hlt => absurd hlt (by omega)⟩⟩
  · rw [find_byRange (by omega) (by omega) (by omega), if_pos ⟨hstart, by omega⟩]
    exact hover hour (by omega) hhour hlate
  · rw [find_byRange (by omega) (by omega) (by omega), if_neg (by omega)]
  · exact (hw.settled hs hfirst hle hhour hlt).2

section Sum

variable {summaries : List MarketSummary} {cumulative : MarketSummary} {h₀ : ℕ}

section

variable (hw : AllTimeWindow c s toBlock summaries cumulative n h₀) (hover : n + 3600 ≤ c.blockTimestamp toBlock)

include hw hover

theorem AllTimeWindow.sumHour : (sumHour summaries cumulative n).total = s.db.tables.counted h₀ (n + 3600) := by
  have hstart := hw.start_le
  have hfirst := hw.first_le
  have hsofar := hw.cumulative (le_getHourStart hw.dvd (by omega))
  funext k
  rw [← EventTables.counted_add (hfirst.trans hstart) (Nat.le_add_right n 3600) k, ← hsofar]
  by_cases heq : n = startHour (c.blockTimestamp toBlock)
  · have hunfound := hw.unfound
    rw [← heq] at hunfound
    have hquiet := hw.quiet k
    rw [← heq] at hquiet
    rw [Indexer.sumHour, hunfound, hquiet]
    rfl
  · obtain ⟨r, hr, htotal⟩ := hw.found n (by omega) hw.dvd hover
    rw [Indexer.sumHour, hr, ← htotal]

theorem AllTimeWindow.row :
    HasTotal (s.upsertAllTime (Indexer.sumHour summaries cumulative n)).allTime n (s.db.tables.counted h₀ (n + 3600)) := by
  rw [← hw.sumHour hover]
  exact hasTotal_upsert _ _

end

theorem Base.upsertAllTime (hs : Base c s) (hw : AllTimeWindow c s toBlock summaries cumulative n h₀) (hle : n ≤ getHourStart (c.blockTimestamp toBlock)) :
    Base c (s.upsertAllTime (Indexer.sumHour summaries cumulative n)) where
  bounded := hs.bounded
  height := hs.height
  first := hs.first
  allTime := by
    intro r hr
    obtain rfl | hr := mem_upsert hr
    · obtain ⟨last, hlast, htime⟩ := hw.time hs
      have hearly := hw.early
      have hend := getHourStart_le (c.blockTimestamp toBlock)
      have hn : (Indexer.sumHour summaries cumulative n).periodTimestamp = n := rfl
      rw [hn]
      exact ⟨hw.dvd, by omega, ⟨last, hlast, by omega⟩, h₀, hw.firstHour, hw.first_le.trans hw.start_le⟩
    · exact hs.allTime r hr
  settled := by
    intro l h0' hl hfirst hour hfirst_le hdvd hlt
    obtain rfl := Option.some.inj (hw.firstHour.symm.trans hfirst)
    have hend := getHourStart_le (c.blockTimestamp toBlock)
    have hl_le : l.periodTimestamp ≤ getHourStart (c.blockTimestamp toBlock) ∧ 3600 ∣ l.periodTimestamp := by
      obtain rfl | hold := mem_upsert (latest_mem hl)
      · exact ⟨hle, hw.dvd⟩
      · exact ⟨hw.le l hold, (hs.allTime l hold).1⟩
    have hover : hour + 3600 ≤ c.blockTimestamp toBlock := by omega
    refine ⟨hw.hours hour hfirst_le hdvd hover, ?_⟩
    by_cases heq : hour = n
    · rw [heq]
      exact hw.row (heq ▸ hover)
    · refine HasTotal.upsert_of_ne ?_ heq
      by_cases hbefore : hour < n
      · exact hw.sums hour hfirst_le hdvd hbefore hover
      · -- An hour after the one that is written has a sum already, the latest is not the new one.
        have hold : l ∈ s.allTime := by
          obtain rfl | hold := mem_upsert (latest_mem hl)
          · exact absurd hlt (by change ¬hour < n; omega)
          · exact hold
        cases hl' : latest s.allTime with
        | none => exact absurd (latest_none hl' ▸ hold) not_mem_nil
        | some l' =>
          have hle' := le_latest (fun r hr => (hs.allTime r hr).2.1) hl' l hold
          exact (hs.settled l' h₀ hl' hfirst hour hfirst_le hdvd (by omega)).2
  done := by
    intro b hb
    obtain ⟨r, hr, hperiod⟩ := hs.done b hb
    obtain ⟨r', hr', hkey⟩ := @key_mem_upsert _ _ _ periodTimestamp _ (Indexer.sumHour summaries cumulative n) _ hr
    exact ⟨r', hr', hkey.trans hperiod⟩

theorem AllTimeWindow.next (hw : AllTimeWindow c s toBlock summaries cumulative n h₀) (hle : n ≤ getHourStart (c.blockTimestamp toBlock)) :
    AllTimeWindow c (s.upsertAllTime (Indexer.sumHour summaries cumulative n)) toBlock summaries (Indexer.sumHour summaries cumulative n) (n + 3600) h₀ where
  last := hw.last
  late := hw.late
  early := hw.early
  quiet := hw.quiet
  le := by
    intro r hr
    obtain rfl | hr := mem_upsert hr
    · exact hle
    · exact hw.le r hr
  dvd := Dvd.dvd.add hw.dvd (dvd_refl 3600)
  start_le := hw.start_le.trans (Nat.le_add_right _ _)
  firstHour := hw.firstHour
  first_le := hw.first_le
  hours := hw.hours
  found := hw.found
  unfound := hw.unfound
  cumulative := by
    intro hover
    have hend := getHourStart_le (c.blockTimestamp toBlock)
    exact hw.sumHour (hover.trans hend)
  sums := by
    intro hour hfirst hdvd hlt hover
    by_cases heq : hour = n
    · rw [heq]
      exact hw.row (heq ▸ hover)
    · have hn := hw.dvd
      exact (hw.sums hour hfirst hdvd (by omega) hover).upsert_of_ne heq
  rows := by
    intro hour hstart hdvd hlt
    by_cases heq : hour = n
    · exact ⟨_, mem_cons_self, heq.symm⟩
    · have hn := hw.dvd
      obtain ⟨r, hr, hperiod⟩ := hw.rows hour hstart hdvd (by omega)
      obtain ⟨r', hr', hkey⟩ := @key_mem_upsert _ _ _ periodTimestamp _ (Indexer.sumHour summaries cumulative n) _ hr
      exact ⟨r', hr', hkey.trans hperiod⟩

end Sum

end Hour

/-! ### Runs -/

theorem cons_iterHourlyPeriods {n e hourTs hourEnd : ℕ} {todo : List (ℕ × ℕ)} (hn : 3600 ∣ n) (he : 3600 ∣ e)
    (h : (hourTs, hourEnd) :: todo = iterHourlyPeriods n e) : n ≤ e ∧ hourTs = n ∧ hourEnd = getNextHour n ∧ todo = iterHourlyPeriods (n + 3600) e := by
  by_cases hle : n ≤ e
  · rw [iterHourlyPeriods_of_le hn he hle] at h
    obtain ⟨hfirst, htodo⟩ := cons.inj h
    obtain ⟨hts, hend⟩ := Prod.mk.inj hfirst
    exact ⟨hle, hts, hend, htodo⟩
  · rw [iterHourlyPeriods_of_lt hn he (by omega)] at h
    cases h

theorem lt_of_iterHourlyPeriods_nil {n e : ℕ} (hn : 3600 ∣ n) (he : 3600 ∣ e) (h : [] = iterHourlyPeriods n e) : e < n := by
  by_contra hle
  rw [iterHourlyPeriods_of_le hn he (by omega)] at h
  cases h

theorem HourlyWindow.of_task {toBlock n : ℕ} (hw : HourlyWindow c s toBlock n) (task : Task) : HourlyWindow c { s with task } toBlock n :=
  ⟨⟨hw.last, hw.late, hw.early, hw.quiet, hw.le, hw.dvd, hw.start_le⟩, hw.continues, hw.first, hw.written, hw.firstHour⟩

theorem AllTimeWindow.of_task {toBlock n h₀ : ℕ} {summaries : List MarketSummary} {cumulative : MarketSummary}
    (hw : AllTimeWindow c s toBlock summaries cumulative n h₀) (task : Task) : AllTimeWindow c { s with task } toBlock summaries cumulative n h₀ :=
  ⟨⟨hw.last, hw.late, hw.early, hw.quiet, hw.le, hw.dvd, hw.start_le⟩, hw.firstHour, hw.first_le, hw.hours, hw.found, hw.unfound, hw.cumulative,
    hw.sums, hw.rows⟩

theorem Base.finish {toBlock : ℕ} {summaries : List MarketSummary} {cumulative : MarketSummary} {n h₀ : ℕ} (hs : Base c s)
    (hw : AllTimeWindow c s toBlock summaries cumulative n h₀) (hn : getHourStart (c.blockTimestamp toBlock) < n) :
    Base c { s with lastAggregationBlock := some toBlock, task := .idle } where
  bounded := hs.bounded
  height := hs.height
  first := hs.first
  allTime := hs.allTime
  settled := hs.settled
  done := by
    intro b hb
    cases hb
    obtain ⟨hdvd, -, hle⟩ := hw.toWindow.hours
    exact hw.rows _ (le_getHourStart hdvd (by omega)) (dvd_getHourStart _) hn

variable {s' : State}

theorem Step.ok (hstep : Step c start (Steady c) s s') (hs : Base c s) (ht : TaskOk c s s.task) : Base c s' ∧ TaskOk c s' s'.task := by
  have hend := dvd_getHourStart
  cases hstep with
  | blocks h => exact ⟨hs.blocks h.later, ht.blocks hs h.later⟩
  | aggregate toBlock _ hlast _ hsteady => exact ⟨hs.of_task _, _, rfl, (aggregate_ok hs hlast hsteady).of_task _⟩
  | hour htask =>
    rw [htask] at ht
    obtain ⟨n, htodo, hw⟩ := ht
    obtain ⟨-, hts, hnext, htodo⟩ := cons_iterHourlyPeriods hw.dvd (hend _) htodo
    rw [hts, hnext, htodo]
    exact ⟨(hs.upsertHourly hw).of_task _, _, rfl, (hw.next hs).of_task _⟩
  | allTime htask =>
    rw [htask] at ht
    obtain ⟨n, htodo, hw⟩ := ht
    obtain ⟨h₀, hall⟩ := startAllTime_ok hs hw (lt_of_iterHourlyPeriods_nil hw.dvd (hend _) htodo)
    rw [State.startAllTime, hw.actualStartHour hs]
    exact ⟨hs.of_task _, _, h₀, rfl, hall.of_task _⟩
  | sum htask =>
    rw [htask] at ht
    obtain ⟨n, h₀, htodo, hw⟩ := ht
    obtain ⟨hle, hts, -, htodo⟩ := cons_iterHourlyPeriods hw.dvd (hend _) htodo
    rw [hts, htodo]
    exact ⟨(hs.upsertAllTime hw hle).of_task _, _, h₀, rfl, (hw.next hle).of_task _⟩
  | finish htask =>
    rw [htask] at ht
    obtain ⟨n, h₀, htodo, hw⟩ := ht
    exact ⟨hs.finish hw (lt_of_iterHourlyPeriods_nil hw.dvd (hend _) htodo), trivial⟩
  | fail => exact ⟨hs.of_task _, trivial⟩

theorem Base.initial : Base c .initial where
  bounded := by
    intro k x hx
    cases k <;> exact absurd hx not_mem_nil
  height := fun _ h => by cases h
  first := fun _ h => by cases h
  allTime := fun _ h => absurd h not_mem_nil
  settled := fun _ _ h => by cases h
  done := fun _ h => by cases h

theorem Reachable.ok (h : Reachable c start (Steady c) s) : Base c s ∧ TaskOk c s s.task := by
  induction h with
  | initial => exact ⟨.initial, trivial⟩
  | step _ hstep ih => exact hstep.ok ih.1 ih.2

end Steps

/-- When every run is steady, each hour that is over at the last block of a successful run has a summary and a sum, which
count all its events and all events since the first hour. -/
theorem totals_lose_nothing (c : Chain) (start : ℕ) (s : State) (hreach : Reachable c start (Steady c) s) (toBlock : ℕ)
    (hdone : s.lastAggregationBlock = some toBlock) (h₀ : ℕ) (hfirst : s.firstHour = some h₀) (h : ℕ) (hle : h₀ ≤ h) (hhour : 3600 ∣ h)
    (hover : h + 3600 ≤ c.blockTimestamp toBlock) :
    HasTotal s.hourly h (s.db.tables.counted h (h + 3600)) ∧ HasTotal s.allTime h (s.db.tables.counted h₀ (h + 3600)) := by
  obtain ⟨hs, -⟩ := hreach.ok
  obtain ⟨r, hr, hperiod⟩ := hs.done toBlock hdone
  have hend := lt_getHourStart_add (c.blockTimestamp toBlock)
  cases hl : latest s.allTime with
  | none => exact absurd (latest_none hl ▸ hr) List.not_mem_nil
  | some l =>
    have hlatest := le_latest (fun r hr => (hs.allTime r hr).2.1) hl r hr
    exact hs.settled l h₀ hl hfirst h hle hhour (by omega)

section Sample

/-- The times of three blocks, the second at seven hours. -/
def threeBlocks (first block : ℕ) : ℕ := if block = 1 then first else 12600 * block

theorem threeBlocks_strict {first : ℕ} (hpos : 0 < first) (hlt : first < 25200) {a b : ℕ} (h : a < b) : threeBlocks first a < threeBlocks first b := by
  unfold threeBlocks
  split_ifs <;> omega

/-- A request is submitted in each of the first two blocks. -/
def submittedAt (first : ℕ) (hpos : 0 < first) (hlt : first < 25200) : Chain where
  blockTimestamp := threeBlocks first
  logs := fun b =>
    if b = 1 ∨ b = 2 then [⟨.requestSubmitted 0 ⟨.ofNat 256 b, ⟨⟨0, 0⟩, ⟨.prefixMatch, []⟩, 0⟩, [], ⟨.inline, []⟩, ⟨0, 0, 0, 0, 0, 0, 0⟩⟩ [], 0⟩] else []
  signingHash := fun request => request.id
  height := 3
  strict := fun h _ => threeBlocks_strict hpos hlt h
  timestamp_lt := of_decide_eq_true rfl

def aggregated (c : Chain) : State := State.processAggregations c 2 { State.initial with db := Db.empty.processBlocks c [] 1 2 }

theorem reachable_aggregated {allowed : State → ℕ → Prop} (c : Chain) (hheight : 2 ≤ c.height)
    (hallowed : allowed { State.initial with db := Db.empty.processBlocks c [] 1 2 } 2) : Reachable c 1 allowed (aggregated c) := by
  have hblocks : Reachable c 1 allowed { State.initial with db := Db.empty.processBlocks c [] 1 2 } :=
    .step .initial (.blocks (.processed [] 2 (by decide) hheight))
  exact hblocks.processAggregations rfl rfl (fun _ h => by cases h) hallowed

/-- A request in the third hour, when the window begins with the second one. -/
def thirdHour : Chain := submittedAt 7200 (Nat.succ_pos _) (of_decide_eq_true rfl)

def secondHour : Chain := submittedAt 3600 (Nat.succ_pos _) (of_decide_eq_true rfl)

/-- The state before the second run, with the third block. -/
def beforeSecondRun : State := { aggregated thirdHour with db := (aggregated thirdHour).db.processBlocks thirdHour [] 3 3 }

/-- The second run comes to the hour of the second request. -/
theorem totals_lose_nothing_second_run :
    let s := beforeSecondRun.processAggregations thirdHour 3
    HasTotal s.hourly 25200 (s.db.tables.counted 25200 28800) ∧ HasTotal s.allTime 25200 (s.db.tables.counted 3600 28800) := by
  have hfirst : Steady thirdHour { State.initial with db := Db.empty.processBlocks thirdHour [] 1 2 } 2 := by
    refine ⟨by decide, by decide, fun _ h => absurd h (by simp [latest, State.initial]), fun _ _ h => absurd h List.not_mem_nil, fun k => ?_⟩
    cases k <;> decide
  have hsecond : Steady thirdHour beforeSecondRun 3 := by
    refine ⟨by decide, by decide, fun l hl => ?_, fun h => absurd h (by decide), fun k => ?_⟩
    · have hlatest : (latest beforeSecondRun.allTime).map MarketSummary.periodTimestamp = some 25200 := by decide
      rw [hl, Option.map_some, Option.some.injEq] at hlatest
      rw [hlatest]
      decide
    · cases k <;> decide
  have hreach : Reachable thirdHour 1 (Steady thirdHour) beforeSecondRun :=
    (reachable_aggregated thirdHour (by decide) hfirst).step (.blocks (.processed [] 3 (by decide) le_rfl))
  have hlast (last : ℕ) (h : beforeSecondRun.lastAggregationBlock = some last) : last < 3 := by
    cases h
    decide
  exact totals_lose_nothing thirdHour 1 _ (hreach.processAggregations rfl rfl hlast hsecond) 3 rfl 3600 (by decide) 25200 (by decide) (by decide)
    (by decide)

/-- The request in the second hour, with which the window begins, is missing in the sums. -/
theorem first_hour_lost : ¬∀ (c : Chain) (start : ℕ) (s : State), Reachable c start (fun _ _ => True) s → ∀ toBlock, s.lastAggregationBlock = some toBlock →
    ∀ h₀, s.firstHour = some h₀ → ∀ h, h₀ ≤ h → 3600 ∣ h → h + 3600 ≤ c.blockTimestamp toBlock →
      HasTotal s.hourly h (s.db.tables.counted h (h + 3600)) ∧ HasTotal s.allTime h (s.db.tables.counted h₀ (h + 3600)) := by
  intro hall
  have hreach := @reachable_aggregated (fun _ _ => True) secondHour (by decide) trivial
  obtain ⟨-, r, hr, htotal⟩ := hall _ 1 _ hreach 2 rfl 3600 (by decide) 3600 (by decide) (by decide) (by decide)
  have hstored : (findRow MarketSummary.periodTimestamp (aggregated secondHour).allTime 3600).map
      (fun r => r.total .requestsSubmittedOnchain) = some 0 := by decide
  rw [hr, Option.map_some, htotal] at hstored
  exact absurd hstored (by decide)

end Sample

end VerifiableCompute.Indexer
