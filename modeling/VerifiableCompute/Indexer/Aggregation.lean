import VerifiableCompute.Indexer.Statuses

/-! Hourly and all-time summaries of the market. A run recomputes the last hours from the events and
builds the all-time sums of these hours on top of the sum before them, one hour at a time. -/

namespace VerifiableCompute.Indexer

open Lib Market

def getHourStart (timestamp : ℕ) : ℕ := timestamp / 3600 * 3600

/-- Sums and differences of 64 bits wrap. -/
def getNextHour (timestamp : ℕ) : ℕ := (getHourStart timestamp + 3600) % 2 ^ 64

def iterHourlyPeriods (startTs endTs : ℕ) : List (ℕ × ℕ) :=
  let startHour := getHourStart startTs
  let endHour := getHourStart endTs
  if endHour < startHour then []
  else (List.range ((endHour - startHour) / 3600 + 1)).map fun i => (startHour + 3600 * i, getNextHour (startHour + 3600 * i))

/-- The first hour that a run at this time recomputes. -/
def startHour (currentTime : ℕ) : ℕ := getHourStart ((currentTime + 2 ^ 64 - 6 * 3600) % 2 ^ 64)

/-- What is counted of a period. -/
inductive Total
  | fulfilled
  | requestsSubmittedOnchain
  | requestsLocked
  | requestsSlashed

structure MarketSummary where
  periodTimestamp : ℕ
  total : Total → ℕ

def getPeriodCount (timestamps : List ℕ) (periodStart periodEnd : ℕ) : ℕ :=
  timestamps.countP fun t => asI64 periodStart ≤ asI64 t ∧ asI64 t < asI64 periodEnd

namespace EventTables

variable (t : EventTables)

def timestamps : Total → List ℕ
  | .fulfilled => t.fulfilled.map ProverRow.blockTimestamp
  | .requestsSubmittedOnchain => t.submitted.map SubmittedRow.blockTimestamp
  | .requestsLocked => t.locked.map ProverRow.blockTimestamp
  | .requestsSlashed => t.slashed.map SlashedRow.blockTimestamp

def computePeriodSummary (periodStart periodEnd : ℕ) : MarketSummary where
  periodTimestamp := periodStart
  total := fun k => getPeriodCount (t.timestamps k) periodStart periodEnd

/-- The events with a timestamp from `a` on and before `b`. -/
def counted (a b : ℕ) (k : Total) : ℕ := (t.timestamps k).countP fun x => a ≤ x ∧ x < b

end EventTables

/-- `ORDER BY … DESC LIMIT 1`. -/
def latest : List MarketSummary → Option MarketSummary
  | [] => none
  | row :: rows =>
    match latest rows with
    | none => some row
    | some l => if asI64 l.periodTimestamp < asI64 row.periodTimestamp then some row else some l

inductive Task
  | idle
  | hourly (toBlock : ℕ) (todo : List (ℕ × ℕ))
  | allTime (toBlock : ℕ) (hourlySummaries : List MarketSummary) (cumulative : MarketSummary) (todo : List (ℕ × ℕ))

structure State where
  db : Db
  hourly : List MarketSummary
  allTime : List MarketSummary
  lastAggregationBlock : Option ℕ
  task : Task

namespace State

variable (s : State)

def initial : State := ⟨.empty, [], [], none, .idle⟩

def upsertHourly (summary : MarketSummary) : State := { s with hourly := upsert MarketSummary.periodTimestamp s.hourly summary }

def upsertAllTime (summary : MarketSummary) : State := { s with allTime := upsert MarketSummary.periodTimestamp s.allTime summary }

/-- Both bounds are exclusive. The order of the rows plays no role, they are looked up by hour. -/
def getHourlyMarketSummariesByRange (after before : ℕ) : List MarketSummary :=
  s.hourly.filter fun r => asI64 after < asI64 r.periodTimestamp ∧ asI64 r.periodTimestamp < asI64 before

/-- The hours since the latest sum are gone over again when it is from before the hours that are recomputed. -/
def actualStartHour (fromTime : ℕ) : ℕ :=
  match latest s.allTime with
  | some l =>
    let nextExpectedHour := (l.periodTimestamp + 3600) % 2 ^ 64
    if nextExpectedHour < fromTime then nextExpectedHour else fromTime
  | none => fromTime

/-- The sum to build on, of the hour before. -/
def baseSummary (actualStartHour : ℕ) : MarketSummary :=
  match findRow MarketSummary.periodTimestamp s.allTime (actualStartHour - 3600) with
  | some prev => prev
  | none => ⟨actualStartHour - 3600, fun _ => 0⟩

def startAllTime (toBlock fromTime toTime : ℕ) : State :=
  let start := s.actualStartHour fromTime
  { s with task := .allTime toBlock (s.getHourlyMarketSummariesByRange fromTime (toTime + 1)) (s.baseSummary start) (iterHourlyPeriods start toTime) }

end State

/-- The sum with one more hour, if there is a summary of it. -/
def sumHour (hourlySummaries : List MarketSummary) (cumulative : MarketSummary) (hourTs : ℕ) : MarketSummary where
  periodTimestamp := hourTs
  total := match hourlySummaries.find? fun r => r.periodTimestamp = hourTs with
    | some r => fun k => cumulative.total k + r.total k
    | none => cumulative.total

/-- The batches of blocks, with those that fail. -/
inductive Advance (c : Chain) (start : ℕ) (db : Db) : Db → Prop
  | interrupted (toBlock : ℕ) (rows : EventTables) (hnext : db.nextBlock start ≤ toBlock) (hto : toBlock ≤ c.height)
      (hrows : rows.IsPrefix (c.rows (c.fetchLogs (db.nextBlock start) (toBlock + 1)))) : Advance c start db { db with tables := db.tables.insert rows }
  | unrecorded (counts : CycleCounts) (toBlock : ℕ) (hnext : db.nextBlock start ≤ toBlock) (hto : toBlock ≤ c.height) :
      Advance c start db (db.processed c counts (db.nextBlock start) toBlock)
  | processed (counts : CycleCounts) (toBlock : ℕ) (hnext : db.nextBlock start ≤ toBlock) (hto : toBlock ≤ c.height) :
      Advance c start db (db.processBlocks c counts (db.nextBlock start) toBlock)

/-- Blocks are processed at any time. A run begins when there are new blocks, may fail in each of its steps, and ends when
the other summaries are done as well. -/
inductive Step (c : Chain) (start : ℕ) (allowed : State → ℕ → Prop) (s : State) : State → Prop
  | blocks {db : Db} (h : Advance c start s.db db) : Step c start allowed s { s with db }
  | aggregate (toBlock : ℕ) (hidle : s.task = .idle) (hlast : s.db.lastBlock = some toBlock)
      (hnew : ∀ last, s.lastAggregationBlock = some last → last < toBlock) (hallowed : allowed s toBlock) :
      Step c start allowed s
        { s with task := .hourly toBlock (iterHourlyPeriods (startHour (c.blockTimestamp toBlock)) (getHourStart (c.blockTimestamp toBlock))) }
  | hour {toBlock hourTs hourEnd : ℕ} {todo : List (ℕ × ℕ)} (htask : s.task = .hourly toBlock ((hourTs, hourEnd) :: todo)) :
      Step c start allowed s { s.upsertHourly (s.db.tables.computePeriodSummary hourTs hourEnd) with task := .hourly toBlock todo }
  | allTime {toBlock : ℕ} (htask : s.task = .hourly toBlock []) :
      Step c start allowed s (s.startAllTime toBlock (startHour (c.blockTimestamp toBlock)) (getHourStart (c.blockTimestamp toBlock)))
  | sum {toBlock hourTs hourEnd : ℕ} {summaries : List MarketSummary} {cumulative : MarketSummary} {todo : List (ℕ × ℕ)}
      (htask : s.task = .allTime toBlock summaries cumulative ((hourTs, hourEnd) :: todo)) :
      Step c start allowed s { s.upsertAllTime (sumHour summaries cumulative hourTs) with
        task := .allTime toBlock summaries (sumHour summaries cumulative hourTs) todo }
  | finish {toBlock : ℕ} {summaries : List MarketSummary} {cumulative : MarketSummary} (htask : s.task = .allTime toBlock summaries cumulative []) :
      Step c start allowed s { s with lastAggregationBlock := some toBlock, task := .idle }
  | fail : Step c start allowed s { s with task := .idle }

inductive Reachable (c : Chain) (start : ℕ) (allowed : State → ℕ → Prop) : State → Prop
  | initial : Reachable c start allowed .initial
  | step {s s' : State} (h : Reachable c start allowed s) (hstep : Step c start allowed s s') : Reachable c start allowed s'

def State.firstHour (s : State) : Option ℕ := (s.hourly.map MarketSummary.periodTimestamp).min?

namespace State

/-- The loop over the hours of the window. -/
def aggregateHourly (s : State) : List (ℕ × ℕ) → State
  | [] => s
  | (hourTs, hourEnd) :: todo => (s.upsertHourly (s.db.tables.computePeriodSummary hourTs hourEnd)).aggregateHourly todo

/-- The loop over the sums. -/
def aggregateAllTime (summaries : List MarketSummary) (s : State) (cumulative : MarketSummary) : List (ℕ × ℕ) → State
  | [] => s
  | (hourTs, _) :: todo =>
    (s.upsertAllTime (sumHour summaries cumulative hourTs)).aggregateAllTime summaries (sumHour summaries cumulative hourTs) todo

/-- A run in which nothing fails and between whose steps no blocks are processed. -/
def processAggregations (c : Chain) (toBlock : ℕ) (s : State) : State :=
  let fromTime := startHour (c.blockTimestamp toBlock)
  let toTime := getHourStart (c.blockTimestamp toBlock)
  let s := { s.aggregateHourly (iterHourlyPeriods fromTime toTime) with task := .hourly toBlock [] }
  let start := s.actualStartHour fromTime
  let s := s.aggregateAllTime (s.getHourlyMarketSummariesByRange fromTime (toTime + 1)) (s.baseSummary start) (iterHourlyPeriods start toTime)
  { s with lastAggregationBlock := some toBlock, task := .idle }

end State

section Whole

variable {c : Chain} {start : ℕ} {allowed : State → ℕ → Prop} {s : State} {toBlock : ℕ}

theorem Reachable.aggregateHourly {todo : List (ℕ × ℕ)} (h : Reachable c start allowed { s with task := .hourly toBlock todo }) :
    Reachable c start allowed { s.aggregateHourly todo with task := .hourly toBlock [] } := by
  induction todo generalizing s with
  | nil => exact h
  | cons p todo ih => exact ih (h.step (.hour rfl))

theorem Reachable.aggregateAllTime {summaries : List MarketSummary} {cumulative : MarketSummary} {todo : List (ℕ × ℕ)}
    (h : Reachable c start allowed { s with task := .allTime toBlock summaries cumulative todo }) :
    Reachable c start allowed { s.aggregateAllTime summaries cumulative todo with lastAggregationBlock := some toBlock, task := .idle } := by
  induction todo generalizing s cumulative with
  | nil => exact h.step (.finish rfl)
  | cons p todo ih => exact ih (h.step (.sum rfl))

theorem Reachable.processAggregations (h : Reachable c start allowed s) (hidle : s.task = .idle) (hlast : s.db.lastBlock = some toBlock)
    (hnew : ∀ last, s.lastAggregationBlock = some last → last < toBlock) (hallowed : allowed s toBlock) :
    Reachable c start allowed (s.processAggregations c toBlock) :=
  ((h.step (.aggregate toBlock hidle hlast hnew hallowed)).aggregateHourly.step (.allTime rfl)).aggregateAllTime

end Whole

end VerifiableCompute.Indexer
