import VerifiableCompute.Broker.Batches

/-! What holds in every state that a broker reaches, whatever its services do. The tasks know orders that
were accepted, and of one order at most one task has still to make the session; what the aggregator
holds are such orders, of the two kinds apart, for the one batch that is filled. -/

namespace VerifiableCompute.Broker

open Lib List Db Touched OrderStatus

/-! ### Orders that were collected -/

namespace Db

variable {db db' : Db} {ids : List OrderId} {os : List AggregationOrder}

theorem mapM_aggregationOrder_ok (h : ids.mapM db.aggregationOrder = .ok os) :
    os.map AggregationOrder.orderId = ids ∧ ∀ o ∈ os, db.aggregationOrder o.orderId = .ok o := by
  induction ids generalizing os with
  | nil =>
    cases h
    exact ⟨rfl, by simp⟩
  | cons id ids ih =>
    rw [mapM_cons] at h
    obtain ⟨o, ho, h⟩ := bind_ok_iff.mp h
    obtain ⟨rest, hrest, h⟩ := bind_ok_iff.mp h
    cases h
    obtain ⟨hids, hall⟩ := ih hrest
    obtain ⟨hid, -⟩ := aggregationOrder_ok ho
    refine ⟨by rw [map_cons, hid, hids], fun x hx => ?_⟩
    obtain rfl | hx := mem_cons.mp hx
    · rw [hid]
      exact ho
    · exact hall x hx

theorem collected (status : OrderStatus) (P : CompressionType → Prop) (hskipped : status ≠ .skipped) (hpending : status ≠ .pendingProving)
    (hsettled : ¬status.Settled) (hset : db.setStatuses status ids = .ok db')
    (hfound : ∀ id ∈ ids, ∃ order, db.orders.get? id = some order ∧ order.status ≠ .skipped ∧ ¬order.status.Settled ∧
      status.Fits order.compressionType ∧ P order.compressionType) :
    db'.Writes .nothing db ∧ ∀ os, ids.mapM db'.aggregationOrder = .ok os →
      os.map AggregationOrder.orderId = ids ∧ ∀ o ∈ os, ∃ order, db'.Holds o order ∧ P order.compressionType := by
  have hwrites : db'.Writes .nothing db := writes_setStatuses hskipped hpending hsettled hset fun id hid order hget => by
    obtain ⟨order', hget', -, hunsettled, hfits, -⟩ := hfound id hid
    obtain rfl := Option.some.inj (hget.symm.trans hget')
    exact ⟨hfits, hunsettled⟩
  refine ⟨hwrites, fun os hmap => ?_⟩
  obtain ⟨hids, hall⟩ := mapM_aggregationOrder_ok hmap
  refine ⟨hids, fun o ho => ?_⟩
  obtain ⟨-, row, hrow, hproof, hexpiration, hfee⟩ := aggregationOrder_ok (hall o ho)
  obtain ⟨order, hget, hne, -, -, hP⟩ := hfound o.orderId (hids ▸ mem_map_of_mem ho)
  obtain ⟨order', hget', hfollows⟩ := hwrites.rows _ order hget hne
  obtain rfl := Option.some.inj (hrow.symm.trans hget')
  exact ⟨row, ⟨hrow, hfollows.accepted hne, hproof, hexpiration, hfee⟩, hfollows.compressionType ▸ hP⟩

end Db

/-! ### What the services know -/

/-- A task's order was accepted and taken, and a task that has no session knows of none. -/
structure Monitor.Known (db : Db) (m : Monitor) (order : Order) : Prop where
  row : db.orders.get? m.orderId = some order
  accepted : order.status ≠ .skipped
  taken : order.status ≠ .pendingProving
  compressionType : m.order.compressionType = order.compressionType
  session : m.order.proofId = none → order.proofId = none

/-- The tasks that have still to make a session. -/
def sessionless (monitors : List Monitor) : List OrderId := (monitors.filter fun m => m.order.proofId = none).map Monitor.orderId

structure MonitorsKnown (db : Db) (monitors : List Monitor) : Prop where
  known : ∀ m ∈ monitors, ∃ order, m.Known db order
  sessions : (sessionless monitors).Nodup

def Proving.orders : Proving → List (OrderId × Order)
  | .recovering orders => orders
  | _ => []

def RecoveringKnown (db : Db) (orders : List (OrderId × Order)) : Prop :=
  ∀ entry ∈ orders, ∃ order, db.orders.get? entry.1 = some order ∧ order.status ≠ .skipped ∧ order.status ≠ .pendingProving ∧
    entry.2.compressionType = order.compressionType

structure Work.Known (db : Db) (work : Work) : Prop where
  batch : db.batches[work.batchId]? = some work.batch
  aggregating : work.batch.status = .aggregating
  newProofs : ∀ o ∈ work.newProofs, ∃ order, db.Holds o order ∧ order.compressionType = .none
  newGroth16Proofs : ∀ o ∈ work.newGroth16Proofs, ∃ order, db.Holds o order ∧ order.compressionType ≠ .none
  nodup : (work.newProofs.map AggregationOrder.orderId).Nodup
  nodupGroth16 : (work.newGroth16Proofs.map AggregationOrder.orderId).Nodup

/-- The work if the orders that are not looked at yet are all kept. -/
def Work.keeping (work : Work) (newProofs newGroth16Proofs : List AggregationOrder) : Work :=
  { work with newProofs := work.newProofs ++ newProofs, newGroth16Proofs := work.newGroth16Proofs ++ newGroth16Proofs }

def Aggregator.Known (db : Db) : Aggregator → Prop
  | .idle | .reading _ => True
  | .collecting work _ => work.Known db ∧ work.newProofs = [] ∧ work.newGroth16Proofs = []
  | .collectingGroth16 work _ => work.Known db ∧ work.newGroth16Proofs = []
  | .filtering work _ newProofs newGroth16Proofs => (work.keeping newProofs newGroth16Proofs).Known db
  | .checking work => work.Known db
  | .assessing work | .building work _ | .updating work _ _ => work.Known db ∧ work.allOrders ≠ []
  | .compressing batchId => ∃ batch, db.batches[batchId]? = some batch ∧ batch.status ≠ .aggregating

def Submitter.Known (db : Db) : Submitter → Prop
  | .idle => True
  | .submitting batchId copy => ∃ batch, db.batches[batchId]? = some batch ∧ ¬Db.active batch ∧ copy.SameContent batch

structure System.Known (s : System) : Prop where
  fits : s.db.Fits
  oneActive : s.db.OneActive
  /-- An update has orders. -/
  filled : ∀ batch ∈ s.db.batches, batch.aggregationState.isSome → batch.orders ≠ []
  recovering : RecoveringKnown s.db s.proving.orders
  monitors : MonitorsKnown s.db s.monitors
  aggregator : s.aggregator.Known s.db
  submitter : s.submitter.Known s.db

/-! ### What a step touches -/

/-- The update that the aggregator is about to make. -/
def System.growth (s : System) : Event → Option Growth
  | .updateBatch =>
    match s.aggregator with
    | .updating work assessorProofId state => some ⟨work.batchId, state, work.pending, assessorProofId⟩
    | _ => none
  | _ => none

theorem System.growth_updating {s : System} {work : Work} {assessorProofId : Option ProofId} {state : AggregationState}
    (h : s.aggregator = .updating work assessorProofId state) : s.growth .updateBatch = some ⟨work.batchId, state, work.pending, assessorProofId⟩ := by
  simp only [growth, h]

/-- A task may write over the status of its order, or give it its proof. -/
def System.touched (s : System) : Event → Touched
  | .finishProof i => (s.monitors[i]?.map fun m => Touched.status m.orderId).getD .nothing
  | .createStarkSession i _ => (s.monitors[i]?.map fun m => Touched.proof m.orderId).getD .nothing
  | _ => .nothing

/-! ### What stays known -/

theorem Touched.nothing_ne_proof (id : OrderId) : nothing ≠ .proof id := nofun

section Follows

variable {db db' : Db} {touched : Touched} {growth : Option Growth}

theorem Monitor.Known.follows {m : Monitor} {order : Order} (h : m.Known db order) (hrows : db'.RowsFollow touched db)
    (htouched : m.order.proofId = none → touched ≠ .proof m.orderId) : ∃ order', m.Known db' order' := by
  obtain ⟨order', hget, hfollows⟩ := hrows _ order h.row h.accepted
  refine ⟨order', hget, hfollows.accepted h.accepted, hfollows.taken h.taken, h.compressionType.trans hfollows.compressionType.symm, fun hnone => ?_⟩
  exact (hfollows.sameProof (htouched hnone)).trans (h.session hnone)

theorem MonitorsKnown.follows {monitors monitors' : List Monitor} (h : MonitorsKnown db monitors) (hrows : db'.RowsFollow touched db)
    (htouched : ∀ id, touched ≠ .proof id) (hsublist : monitors'.Sublist monitors) : MonitorsKnown db' monitors' := by
  refine ⟨fun m hm => ?_, h.sessions.sublist ((hsublist.filter _).map _)⟩
  obtain ⟨order, hm⟩ := h.known m (hsublist.subset hm)
  exact hm.follows hrows fun _ => htouched _

theorem RecoveringKnown.follows {orders orders' : List (OrderId × Order)} (h : RecoveringKnown db orders) (hrows : db'.RowsFollow touched db)
    (hsubset : ∀ entry ∈ orders', entry ∈ orders) : RecoveringKnown db' orders' := by
  intro entry hentry
  obtain ⟨order, hget, hne, htaken, htype⟩ := h entry (hsubset entry hentry)
  obtain ⟨order', hget', hfollows⟩ := hrows _ order hget hne
  exact ⟨order', hget', hfollows.accepted hne, hfollows.taken htaken, htype.trans hfollows.compressionType.symm⟩

theorem Db.BatchStep.keeps_aggregating {id : BatchId} {batch : Batch} (hstep : db.BatchStep none db') (hget : db.batches[id]? = some batch)
    (hstatus : batch.status = .aggregating) : db'.batches[id]? = some batch := by
  cases hstep with
  | same h => exact h ▸ hget
  | opened h =>
    rw [h, List.getElem?_append_left (List.getElem?_eq_some_iff.mp hget).1]
    exact hget
  | moved id' old new hold h hcontent hstate haggregating hnew =>
    have hne : id' ≠ id := fun heq => by
      rw [heq, hget] at hold
      exact haggregating (Option.some.inj hold ▸ hstatus)
    rw [h, List.getElem?_set_ne hne]
    exact hget
  | grown g old hgrowth => cases hgrowth

theorem Work.Known.follows {work : Work} (h : work.Known db) (hrows : db'.RowsFollow touched db) (hstep : db.BatchStep none db') :
    work.Known db' where
  batch := hstep.keeps_aggregating h.batch h.aggregating
  aggregating := h.aggregating
  newProofs o ho := by
    obtain ⟨order, hholds, htype⟩ := h.newProofs o ho
    obtain ⟨order', hholds', htype'⟩ := hholds.follows hrows
    exact ⟨order', hholds', htype'.trans htype⟩
  newGroth16Proofs o ho := by
    obtain ⟨order, hholds, htype⟩ := h.newGroth16Proofs o ho
    obtain ⟨order', hholds', htype'⟩ := hholds.follows hrows
    exact ⟨order', hholds', htype' ▸ htype⟩
  nodup := h.nodup
  nodupGroth16 := h.nodupGroth16

theorem Aggregator.Known.follows {aggregator : Aggregator} (h : aggregator.Known db) (hrows : db'.RowsFollow touched db)
    (hstep : db.BatchStep none db') : aggregator.Known db' := by
  cases aggregator with
  | idle => trivial
  | reading => trivial
  | collecting => exact ⟨h.1.follows hrows hstep, h.2⟩
  | collectingGroth16 => exact ⟨h.1.follows hrows hstep, h.2⟩
  | filtering => exact Work.Known.follows h hrows hstep
  | checking => exact Work.Known.follows h hrows hstep
  | assessing => exact ⟨h.1.follows hrows hstep, h.2⟩
  | building => exact ⟨h.1.follows hrows hstep, h.2⟩
  | updating => exact ⟨h.1.follows hrows hstep, h.2⟩
  | compressing =>
    obtain ⟨batch, hget, hne⟩ := h
    obtain ⟨batch', hget', hne', -⟩ := hstep.follows hget
    exact ⟨batch', hget', hne' hne⟩

theorem Submitter.Known.follows {submitter : Submitter} (h : submitter.Known db) (hstep : db.BatchStep growth db') : submitter.Known db' := by
  cases submitter with
  | idle => trivial
  | submitting =>
    obtain ⟨batch, hget, hne, hcopy⟩ := h
    obtain ⟨batch', hget', -, hne', hsame⟩ := hstep.follows hget
    exact ⟨batch', hget', hne' hne, hcopy.trans (hsame (not_active_iff.mp hne).1).symm⟩

end Follows

variable {monitors : List Monitor} {m : Monitor}

theorem MonitorsKnown.append {db : Db} (h : MonitorsKnown db monitors) {order : Order}
    (hm : m.Known db order) (hnew : m.order.proofId = none → m.orderId ∉ sessionless monitors) : MonitorsKnown db (monitors ++ [m]) := by
  refine ⟨fun x hx => ?_, ?_⟩
  · obtain hx | hx := mem_append.mp hx
    · exact h.known x hx
    · exact ⟨order, mem_singleton.mp hx ▸ hm⟩
  · rw [sessionless, filter_append, map_append]
    by_cases hnone : m.order.proofId = none
    · rw [filter_cons_of_pos (by simpa using hnone), filter_nil, map_singleton]
      exact nodup_append.mpr ⟨h.sessions, nodup_singleton _, fun x hx y hy heq => hnew hnone (by
        rw [← mem_singleton.mp hy, ← heq]
        exact hx)⟩
    · rw [filter_cons_of_neg (by simpa using hnone), filter_nil, map_nil, append_nil]
      exact h.sessions

theorem sessionless_set {monitors : List Monitor} {i : ℕ} {m m' : Monitor} (hi : monitors[i]? = some m) (hm : m.order.proofId = none)
    (hm' : m'.order.proofId ≠ none) (hnodup : (sessionless monitors).Nodup) :
    (sessionless (monitors.set i m')).Sublist (sessionless monitors) ∧ ∀ id ∈ sessionless (monitors.set i m'), id ≠ m.orderId := by
  induction monitors generalizing i with
  | nil => cases hi
  | cons x l ih =>
    cases i with
    | zero =>
      cases hi
      rw [set_cons_zero, sessionless, sessionless, filter_cons_of_neg (by simpa using hm'), filter_cons_of_pos (by simpa using hm)]
      rw [sessionless, filter_cons_of_pos (by simpa using hm), map_cons, nodup_cons] at hnodup
      exact ⟨sublist_cons_self _ _, fun id hid heq => hnodup.1 (heq ▸ hid)⟩
    | succ i =>
      rw [getElem?_cons_succ] at hi
      have hmem : m.orderId ∈ sessionless l := mem_map_of_mem (mem_filter.mpr ⟨mem_of_getElem? hi, decide_eq_true hm⟩)
      rw [set_cons_succ]
      by_cases hx : x.order.proofId = none
      · rw [sessionless, filter_cons_of_pos (by simpa using hx), map_cons] at hnodup ⊢
        obtain ⟨hsublist, hnot⟩ := ih hi (nodup_cons.mp hnodup).2
        rw [sessionless, filter_cons_of_pos (by simpa using hx), map_cons]
        refine ⟨hsublist.cons_cons _, fun id hin heq => ?_⟩
        obtain rfl | hin := mem_cons.mp hin
        · exact (nodup_cons.mp hnodup).1 (heq ▸ hmem)
        · exact hnot id hin heq
      · rw [sessionless, filter_cons_of_neg (by simpa using hx)] at hnodup ⊢
        rw [sessionless, filter_cons_of_neg (by simpa using hx)]
        exact ih hi hnodup

theorem mem_sessionless (hm : m ∈ monitors) (hnone : m.order.proofId = none) :
    m.orderId ∈ sessionless monitors := mem_map_of_mem (mem_filter.mpr ⟨hm, decide_eq_true hnone⟩)

namespace System

variable {s s' : System} {touched : Touched} {growth : Option Growth}

/-- What a step does to the database. -/
structure Effect (touched : Touched) (growth : Option Growth) (s s' : System) : Prop where
  rows : s'.db.RowsFollow touched s.db
  fits : s.db.Fits → s'.db.Fits
  batches : s.db.BatchStep growth s'.db

theorem Effect.quiet (h : s'.db = s.db) : Effect .nothing none s s' :=
  ⟨.of_orders_eq (by rw [h]), fun hfits => h ▸ hfits, .same (by rw [h])⟩

theorem Effect.of_writes (h : s'.db.Writes touched s.db) : Effect touched growth s s' := ⟨h.rows, h.fits, .same h.batches⟩

theorem Known.filled_of_step (h : s.Known) (hstep : s.db.BatchStep growth s'.db)
    (hgrowth : ∀ g batch, growth = some g → s.db.batches[g.batchId]? = some batch → batch.orders ++ g.orders.map AggregationOrder.orderId ≠ []) :
    ∀ batch ∈ s'.db.batches, batch.aggregationState.isSome → batch.orders ≠ [] := by
  intro batch' hmem hsome
  obtain ⟨id, hid⟩ := getElem?_of_mem hmem
  obtain hget | ⟨rfl, -, -⟩ | ⟨batch, hget, hcontent, hstate, -, -⟩ | ⟨g, batch, hg, rfl, hget, -, rfl⟩ := hstep.cases_of_mem hid
  · exact h.filled batch' (mem_of_getElem? hget) hsome
  · cases hsome
  · rw [hcontent.orders]
    exact h.filled batch (mem_of_getElem? hget) (hstate ▸ hsome)
  · exact hgrowth g batch hg hget

/-- Where a step leaves a service as it is, what the service knows stays true. -/
theorem Known.step (h : s.Known) (he : Effect touched none s s')
    (hrecovering : (∀ entry ∈ s'.proving.orders, entry ∈ s.proving.orders) ∨ RecoveringKnown s'.db s'.proving.orders)
    (hmonitors : (s'.monitors.Sublist s.monitors ∧ ∀ id, touched ≠ .proof id) ∨ MonitorsKnown s'.db s'.monitors)
    (haggregator : s'.aggregator = s.aggregator ∨ s'.aggregator.Known s'.db)
    (hsubmitter : s'.submitter = s.submitter ∨ s'.submitter.Known s'.db) : s'.Known where
  fits := he.fits h.fits
  oneActive := h.oneActive.step he.batches
  filled := h.filled_of_step he.batches fun _ _ hgrowth => by cases hgrowth
  recovering := by
    obtain hsame | hnew := hrecovering
    · exact h.recovering.follows he.rows hsame
    · exact hnew
  monitors := by
    obtain hsame | hnew := hmonitors
    · exact h.monitors.follows he.rows hsame.2 hsame.1
    · exact hnew
  aggregator := by
    obtain hsame | hnew := haggregator
    · rw [hsame]
      exact h.aggregator.follows he.rows he.batches
    · exact hnew
  submitter := by
    obtain hsame | hnew := hsubmitter
    · rw [hsame]
      exact h.submitter.follows he.batches
    · exact hnew

theorem start_known : start.Known where
  fits _ order hget := absurd hget.symm (Option.some_ne_none order)
  oneActive _ _ _ _ hget _ _ _ := absurd (mem_of_getElem? hget) not_mem_nil
  filled _ hmem := absurd hmem not_mem_nil
  recovering _ hmem := absurd hmem not_mem_nil
  monitors := ⟨fun _ hmem => absurd hmem not_mem_nil, .nil⟩
  aggregator := trivial
  submitter := trivial

theorem Known.writes (h : s.Known) {db' : Db} (hw : db'.Writes .nothing s.db) : { s with db := db' }.Known :=
  h.step (.of_writes hw) (.inl fun _ h => h) (.inl ⟨.refl _, nofun⟩) (.inl rfl) (.inl rfl)

theorem Known.failOrder (h : s.Known) (id : OrderId) (failure : String) :
    Effect .nothing none s (s.failOrder id failure) ∧ (s.failOrder id failure).Known := by
  have hw : (s.db.attempt (s.db.setOrderFailure id failure)).Writes .nothing s.db :=
    .attempt fun db' hok => writes_setOrderFailure .nothing hok
  exact ⟨.of_writes hw, h.writes hw⟩

/-! ### Proving -/

variable {ids : List OrderId} {id : OrderId} {i : ℕ} {proofId : ProofId} {failure err : String} {db : Db} {aggregator : Aggregator}
  {work : Work} {proofs : Proofs} {submitter : Submitter}

section

variable (h : s.Known)

include h

theorem Known.findActiveProofs (hstep : s.findActiveProofs ids = some s') : Effect .nothing none s s' ∧ s'.Known := by
  unfold System.findActiveProofs at hstep
  split at hstep
  next =>
    split_ifs at hstep with hfinds
    cases hstep
    refine ⟨.quiet rfl, h.step (.quiet rfl) (.inr ?_) (.inl ⟨.refl _, nothing_ne_proof⟩) (.inl rfl) (.inl rfl)⟩
    intro entry hentry
    obtain ⟨id, hid, hentry⟩ := mem_filterMap.mp hentry
    obtain ⟨order, hget, rfl⟩ := Option.map_eq_some_iff.mp hentry
    obtain ⟨order', hget', hstatus⟩ := (mem_finds hfinds).mp hid
    obtain rfl := Option.some.inj (hget.symm.trans hget')
    have hstatus : order.status = .proving := of_decide_eq_true hstatus
    exact ⟨order, hget, by rw [hstatus]; decide, by rw [hstatus]; decide, rfl⟩
  next => cases hstep

theorem Known.recoverNext (hstep : s.recoverNext = some s') : Effect .nothing none s s' ∧ s'.Known := by
  unfold System.recoverNext at hstep
  split at hstep
  next hproving =>
    cases hstep
    exact ⟨.quiet rfl, h.step (.quiet rfl) (.inl (by simp [Proving.orders])) (.inl ⟨.refl _, nothing_ne_proof⟩) (.inl rfl) (.inl rfl)⟩
  next id order orders hproving =>
    have hsubset (entry : OrderId × Order) (hentry : entry ∈ orders) : entry ∈ s.proving.orders := by
      rw [hproving]
      exact mem_cons_of_mem _ hentry
    have hrest : { s with proving := .recovering orders }.Known :=
      h.step (.quiet rfl) (.inl hsubset) (.inl ⟨.refl _, nothing_ne_proof⟩) (.inl rfl) (.inl rfl)
    split at hstep
    next hnone =>
      cases hstep
      obtain ⟨he, hknown⟩ := hrest.failOrder id "Proving status missing proof_id"
      exact ⟨⟨he.rows, he.fits, he.batches⟩, hknown⟩
    next proofId hsome =>
      cases hstep
      obtain ⟨row, hget, hne, htaken, htype⟩ := h.recovering (id, order) (by rw [hproving]; exact mem_cons_self)
      have hm : Monitor.Known s.db ⟨id, order, false⟩ row := ⟨hget, hne, htaken, htype, fun hnone => by
        rw [show order.proofId = some proofId from hsome] at hnone
        cases hnone⟩
      refine ⟨.quiet rfl, hrest.step (.quiet rfl) (.inl fun _ h => h) (.inr (h.monitors.append hm fun hnone => ?_)) (.inl rfl) (.inl rfl)⟩
      rw [show order.proofId = some proofId from hsome] at hnone
      cases hnone
  next => cases hstep

theorem Known.takeProvingOrder (hstep : s.takeProvingOrder id = some s') : Effect .nothing none s s' ∧ s'.Known := by
  unfold System.takeProvingOrder at hstep
  split at hstep
  next order hproving hget =>
    split_ifs at hstep with hstatus
    cases hstep
    have hw : { s.db with orders := s.db.orders.insert id { order with status := .proving } }.Writes .nothing s.db :=
      writes_insert hget
        (fun _ => ⟨order.follows_of_status .proving (by decide) (by decide) order.errorMsg,
          fun _ hsettled => by rw [hstatus] at hsettled; simp [Settled] at hsettled,
          fun _ => rfl⟩)
        fun _ => ⟨by simp, by simp⟩
    have hm : Monitor.Known { s.db with orders := s.db.orders.insert id { order with status := .proving } }
        ⟨id, { order with status := .proving }, false⟩ { order with status := .proving } :=
      ⟨by rw [OrderedMap.get?_insert, if_pos rfl], nofun, nofun, rfl, fun h => h⟩
    -- The tasks that are there know orders that were taken before.
    have hnew : id ∉ sessionless s.monitors := fun hmem => by
      obtain ⟨x, hx, rfl⟩ := mem_map.mp hmem
      obtain ⟨row, hknown⟩ := h.monitors.known x (mem_filter.mp hx).1
      obtain rfl := Option.some.inj (hget.symm.trans hknown.row)
      exact hknown.taken hstatus
    have hwritten := h.writes hw
    exact ⟨.of_writes hw, hwritten.step (.quiet rfl) (.inl fun _ h => h) (.inr (hwritten.monitors.append hm fun _ => hnew)) (.inl rfl) (.inl rfl)⟩
  next => cases hstep

theorem Known.restartProving (hstep : s.restartProving = some s') : Effect .nothing none s s' ∧ s'.Known := by
  unfold System.restartProving at hstep
  split at hstep
  next =>
    cases hstep
    exact ⟨.quiet rfl, h.step (.quiet rfl) (.inl (by simp [Proving.orders])) (.inl ⟨.refl _, nothing_ne_proof⟩) (.inl rfl) (.inl rfl)⟩
  next => cases hstep

theorem Known.createStarkSession (hstep : s.createStarkSession i proofId = some s') :
    ∃ m, s.monitors[i]? = some m ∧ Effect (.proof m.orderId) none s s' ∧ s'.Known := by
  unfold System.createStarkSession at hstep
  split at hstep
  next => cases hstep
  next m hi =>
    refine ⟨m, hi, ?_⟩
    split_ifs at hstep with hsome
    have hnone : m.order.proofId = none := by simpa using hsome
    split at hstep
    next db hok =>
      cases hstep
      obtain ⟨order, hm⟩ := h.monitors.known m (mem_of_getElem? hi)
      have hw : db.Writes (.proof m.orderId) s.db := writes_setOrderProofId hok fun row hget _ => by
        obtain rfl := Option.some.inj (hget.symm.trans hm.row)
        exact hm.session hnone
      obtain ⟨hsublist, hnot⟩ := @sessionless_set s.monitors i m { m with order := { m.order with proofId := some proofId } } hi hnone nofun h.monitors.sessions
      refine ⟨.of_writes hw, h.step (.of_writes hw) (.inl fun _ h => h) (.inr ⟨fun x hx => ?_, h.monitors.sessions.sublist hsublist⟩) (.inl rfl) (.inl rfl)⟩
      by_cases hxnone : x.order.proofId = none
      · have hid : x.orderId ≠ m.orderId := hnot _ (mem_sessionless hx hxnone)
        obtain hx | rfl := mem_or_eq_of_mem_set hx
        · obtain ⟨order', hx⟩ := h.monitors.known x hx
          exact hx.follows hw.rows fun _ heq => hid (proof.inj heq).symm
        · exact absurd rfl hid
      · obtain hx | rfl := mem_or_eq_of_mem_set hx
        · obtain ⟨order', hx⟩ := h.monitors.known x hx
          exact hx.follows hw.rows fun hnone => absurd hnone hxnone
        · obtain ⟨order', hget, hfollows⟩ := hw.rows _ order hm.row hm.accepted
          exact ⟨order', hget, hfollows.accepted hm.accepted, hfollows.taken hm.taken, hm.compressionType.trans hfollows.compressionType.symm, nofun⟩
    next =>
      cases hstep
      exact ⟨.of_writes (.refl _ _), h⟩

theorem Known.compress (hstep : s.compress i proofId = some s') : Effect .nothing none s s' ∧ s'.Known := by
  unfold System.compress at hstep
  split at hstep
  next => cases hstep
  next m hi =>
    split_ifs at hstep with hready
    split at hstep
    next db hok =>
      cases hstep
      have hw := writes_setOrderCompressedProofId .nothing hok
      obtain ⟨order, hm⟩ := h.monitors.known m (List.mem_of_getElem? hi)
      have hwritten := h.writes hw
      -- The task's order is as it was.
      have hsessions : sessionless (s.monitors.set i { m with compressed := true }) = sessionless s.monitors := by
        have hmap (l : List Monitor) : sessionless l = ((l.map fun m => (m.orderId, m.order)).filter fun e => e.2.proofId = none).map Prod.fst := by
          rw [sessionless, List.filter_map, List.map_map]
          rfl
        obtain ⟨hlt, hget⟩ := List.getElem?_eq_some_iff.mp hi
        have hsame : (s.monitors.map fun m => (m.orderId, m.order)).set i (m.orderId, m.order) = s.monitors.map fun m => (m.orderId, m.order) := by
          rw [← hget, ← List.map_set, List.set_getElem_self]
        rw [hmap, hmap, List.map_set, hsame]
      refine ⟨.of_writes hw, hwritten.step (.quiet rfl) (.inl fun _ h => h) (.inr ⟨fun x hx => ?_, hsessions ▸ h.monitors.sessions⟩) (.inl rfl) (.inl rfl)⟩
      obtain hx | rfl := List.mem_or_eq_of_mem_set hx
      · exact hwritten.monitors.known x hx
      · obtain ⟨order', hm'⟩ := hwritten.monitors.known m (List.mem_of_getElem? hi)
        exact ⟨order', hm'.row, hm'.accepted, hm'.taken, hm'.compressionType, hm'.session⟩
    next =>
      cases hstep
      exact ⟨.quiet rfl, h⟩

end

theorem provenStatus_fits {order row : Order} (h : order.compressionType = row.compressionType) : (provenStatus order).Fits row.compressionType := by
  unfold provenStatus
  split
  next hcompresses => exact ⟨by simp, fun _ => h ▸ hcompresses⟩
  next hplain => exact ⟨fun _ => h ▸ not_not.mp hplain, by simp⟩

section

variable (h : s.Known)

include h

theorem Known.finishProof (hstep : s.finishProof i = some s') :
    ∃ m, s.monitors[i]? = some m ∧ Effect (.status m.orderId) none s s' ∧ s'.Known := by
  unfold System.finishProof at hstep
  split at hstep
  next => cases hstep
  next m hi =>
    refine ⟨m, hi, ?_⟩
    split_ifs at hstep with hready
    cases hstep
    obtain ⟨order, hm⟩ := h.monitors.known m (mem_of_getElem? hi)
    have hw : (s.db.attempt (s.db.setAggregationStatus m.orderId (provenStatus m.order))).Writes (.status m.orderId) s.db := by
      refine .attempt fun db' hok => writes_setAggregationStatus hok ?_ ?_ (fun row hget => ?_) (.inl rfl)
      · unfold provenStatus
        split <;> decide
      · unfold provenStatus
        split <;> decide
      · obtain rfl := Option.some.inj (hm.row.symm.trans hget)
        exact provenStatus_fits hm.compressionType
    exact ⟨.of_writes hw, h.step (.of_writes hw) (.inl fun _ h => h) (.inl ⟨eraseIdx_sublist .., nofun⟩) (.inl rfl) (.inl rfl)⟩

theorem Known.abortProof (i : ℕ) : Effect .nothing none s (s.abortProof i) ∧ (s.abortProof i).Known :=
  ⟨.quiet rfl, h.step (.quiet rfl) (.inl fun _ h => h) (.inl ⟨eraseIdx_sublist .., nothing_ne_proof⟩) (.inl rfl) (.inl rfl)⟩

theorem Known.failProof (hstep : s.failProof i failure = some s') : Effect .nothing none s s' ∧ s'.Known := by
  unfold System.failProof at hstep
  split at hstep
  next => cases hstep
  next m hi =>
    cases hstep
    obtain ⟨he, hknown⟩ := (h.abortProof i).2.failOrder m.orderId failure
    exact ⟨⟨he.rows, he.fits, he.batches⟩, hknown⟩

/-! ### Aggregation -/

theorem Known.aggregate (aggregator : Aggregator) (hknown : aggregator.Known s.db) :
    Effect .nothing none s { s with aggregator } ∧ { s with aggregator }.Known :=
  ⟨.quiet rfl, h.step (.quiet rfl) (.inl fun _ h => h) (.inl ⟨.refl _, nothing_ne_proof⟩) (.inr hknown) (.inl rfl)⟩

theorem Known.aggregateWrites (hw : db.Writes .nothing s.db) (hknown : aggregator.Known db) :
    Effect .nothing none s { s with db, aggregator } ∧ { s with db, aggregator }.Known := by
  obtain ⟨-, hnew⟩ := (h.writes hw).aggregate aggregator hknown
  exact ⟨.of_writes hw, hnew⟩

theorem Known.restartAggregator : Effect .nothing none s s.restartAggregator ∧ s.restartAggregator.Known := h.aggregate _ trivial

theorem Known.currentBatch (hstep : s.currentBatch = some s') : Effect .nothing none s s' ∧ s'.Known := by
  unfold System.currentBatch at hstep
  split at hstep
  next hidle =>
    split at hstep
    next db batchId hok =>
      cases hstep
      unfold getCurrentBatch at hok
      split at hok
      next id hfound =>
        obtain ⟨_, _, hok⟩ := bind_ok_iff.mp hok
        obtain ⟨rfl, rfl⟩ := Prod.mk.inj (Except.ok.inj hok)
        exact h.aggregate _ trivial
      next hnone =>
        obtain ⟨rfl, rfl⟩ := Prod.mk.inj (Except.ok.inj hok)
        have hinactive (batch : Batch) (hmem : batch ∈ s.db.batches) : ¬active batch :=
          Bool.eq_false_iff.mp (findIdx?_eq_none_iff.mp hnone batch hmem)
        have he : Effect .nothing none s { s with db := s.db.newBatch.1, aggregator := .reading s.db.newBatch.2 } :=
          ⟨.of_orders_eq rfl, fun h => h, .opened rfl hinactive⟩
        exact ⟨he, h.step he (.inl fun _ h => h) (.inl ⟨.refl _, nothing_ne_proof⟩) (.inr trivial) (.inl rfl)⟩
    next =>
      cases hstep
      exact ⟨.quiet rfl, h⟩
  next => cases hstep

theorem Known.readBatch {now : BitVec 64} (hstep : s.readBatch now = some s') : Effect .nothing none s s' ∧ s'.Known := by
  unfold System.readBatch at hstep
  split at hstep
  next batchId hreading =>
    split at hstep
    next =>
      cases hstep
      exact h.restartAggregator
    next batch hok =>
      have hget := getBatch_ok hok
      split at hstep
      next hstatus =>
        cases hstep
        exact h.aggregate _ ⟨⟨hget, hstatus, nofun, nofun, .nil, .nil⟩, rfl, rfl⟩
      next hstatus _ =>
        cases hstep
        exact h.aggregate _ ⟨batch, hget, by rw [hstatus]; decide⟩
      next =>
        cases hstep
        exact h.restartAggregator
  next => cases hstep

theorem Known.collectProofs (hstep : s.collectProofs ids = some s') : Effect .nothing none s s' ∧ s'.Known := by
  unfold System.collectProofs at hstep
  split at hstep
  next work now hcollecting =>
    have haggregator := h.aggregator
    rw [hcollecting] at haggregator
    obtain ⟨hwork, -, hgroth16⟩ := haggregator
    split_ifs at hstep with hfinds
    have hfound (id : OrderId) (hid : id ∈ ids) : ∃ order, s.db.orders.get? id = some order ∧ order.status ≠ .skipped ∧ ¬order.status.Settled ∧
        aggregating.Fits order.compressionType ∧ order.compressionType = .none := by
      obtain ⟨order, hget, hp⟩ := (mem_finds hfinds).mp hid
      have hstatus : order.status = .pendingAgg ∨ order.status = .aggregating := of_decide_eq_true hp
      have htype := (h.fits id order hget).plain hstatus
      refine ⟨order, hget, ?_, ?_, ⟨fun _ => htype, nofun⟩, htype⟩
      · obtain hstatus | hstatus := hstatus <;> rw [hstatus] <;> decide
      · obtain hstatus | hstatus := hstatus <;> simp [Settled, hstatus]
    split at hstep
    next db proofs hok =>
      cases hstep
      obtain ⟨db', hset, hok⟩ := bind_ok_iff.mp hok
      obtain ⟨rfl, hmap⟩ := Prod.mk.inj (Except.ok.inj hok)
      obtain ⟨hw, hall⟩ := collected .aggregating (· = .none) (by decide) (by decide) (by simp [Settled]) hset hfound
      obtain ⟨hids, hproofs⟩ := hall proofs hmap
      have hwork := hwork.follows hw.rows (.same hw.batches)
      exact h.aggregateWrites hw
        ⟨⟨hwork.batch, hwork.aggregating, hproofs, hwork.newGroth16Proofs, hids ▸ finds_nodup hfinds, hwork.nodupGroth16⟩, hgroth16⟩
    next db hok =>
      cases hstep
      obtain ⟨db', hset, hok⟩ := bind_ok_iff.mp hok
      obtain ⟨rfl, -⟩ := Prod.mk.inj (Except.ok.inj hok)
      exact h.aggregateWrites (collected .aggregating (· = .none) (by decide) (by decide) (by simp [Settled]) hset hfound).1 trivial
    next =>
      cases hstep
      exact h.restartAggregator
  next => cases hstep

theorem Known.collectGroth16Proofs (hstep : s.collectGroth16Proofs ids = some s') :
    Effect .nothing none s s' ∧ s'.Known := by
  unfold System.collectGroth16Proofs at hstep
  split at hstep
  next work now hcollecting =>
    have haggregator := h.aggregator
    rw [hcollecting] at haggregator
    obtain ⟨hwork, hgroth16⟩ := haggregator
    split_ifs at hstep with hfinds
    have hfound (id : OrderId) (hid : id ∈ ids) : ∃ order, s.db.orders.get? id = some order ∧ order.status ≠ .skipped ∧ ¬order.status.Settled ∧
        skipAggregation.Fits order.compressionType ∧ order.compressionType ≠ .none := by
      obtain ⟨order, hget, hp⟩ := (mem_finds hfinds).mp hid
      have hstatus : order.status = .skipAggregation := of_decide_eq_true hp
      have htype := (h.fits id order hget).compressed hstatus
      exact ⟨order, hget, by rw [hstatus]; decide, by simp [Settled, hstatus], ⟨nofun, fun _ => htype⟩, htype⟩
    split at hstep
    next db proofs hok =>
      cases hstep
      obtain ⟨db', hset, hok⟩ := bind_ok_iff.mp hok
      obtain ⟨rfl, hmap⟩ := Prod.mk.inj (Except.ok.inj hok)
      obtain ⟨hw, hall⟩ := collected .skipAggregation (· ≠ .none) (by decide) (by decide) (by simp [Settled]) hset hfound
      obtain ⟨hids, hproofs⟩ := hall proofs hmap
      have hwork := hwork.follows hw.rows (.same hw.batches)
      refine h.aggregateWrites hw ⟨hwork.batch, hwork.aggregating, hwork.newProofs, fun o ho => ?_, hwork.nodup, ?_⟩
      · exact hproofs o (by simpa [Work.keeping, hgroth16] using ho)
      · simpa [Work.keeping, hgroth16, hids] using finds_nodup hfinds
    next db hok =>
      cases hstep
      obtain ⟨db', hset, hok⟩ := bind_ok_iff.mp hok
      obtain ⟨rfl, -⟩ := Prod.mk.inj (Except.ok.inj hok)
      exact h.aggregateWrites (collected .skipAggregation (· ≠ .none) (by decide) (by decide) (by simp [Settled]) hset hfound).1 trivial
    next =>
      cases hstep
      exact h.restartAggregator
  next => cases hstep

end

theorem Work.Known.drop {work' : Work} (h : work.Known db) (hid : work'.batchId = work.batchId) (hbatch : work'.batch = work.batch)
    (hnew : work'.newProofs.Sublist work.newProofs) (hgroth16 : work'.newGroth16Proofs.Sublist work.newGroth16Proofs) : work'.Known db where
  batch := by
    rw [hid, hbatch]
    exact h.batch
  aggregating := hbatch ▸ h.aggregating
  newProofs o ho := h.newProofs o (hnew.subset ho)
  newGroth16Proofs o ho := h.newGroth16Proofs o (hgroth16.subset ho)
  nodup := h.nodup.sublist (hnew.map _)
  nodupGroth16 := h.nodupGroth16.sublist (hgroth16.map _)

section

variable (h : s.Known)

include h

theorem Known.filterExpired (hstep : s.filterExpired = some s') : Effect .nothing none s s' ∧ s'.Known := by
  have haggregator := h.aggregator
  unfold System.filterExpired at hstep
  split at hstep
  next work now order newProofs newGroth16Proofs hfiltering =>
    rw [hfiltering] at haggregator
    split_ifs at hstep with hexpired
    · cases hstep
      have hdrop : (work.keeping newProofs newGroth16Proofs).Known s.db :=
        Work.Known.drop haggregator rfl rfl ((Sublist.refl _).append (sublist_cons_self _ _)) (.refl _)
      obtain ⟨he, hknown⟩ := (h.aggregate (.filtering work now newProofs newGroth16Proofs) hdrop).2.failOrder order.orderId "Expired before aggregation"
      exact ⟨⟨he.rows, he.fits, he.batches⟩, hknown⟩
    · cases hstep
      exact h.aggregate _ (Work.Known.drop haggregator rfl rfl (by simp [Work.keeping]) (.refl _))
  next work now order newGroth16Proofs hfiltering =>
    rw [hfiltering] at haggregator
    split_ifs at hstep with hexpired
    · cases hstep
      have hdrop : (work.keeping [] newGroth16Proofs).Known s.db :=
        Work.Known.drop haggregator rfl rfl (.refl _) ((Sublist.refl _).append (sublist_cons_self _ _))
      obtain ⟨he, hknown⟩ := (h.aggregate (.filtering work now [] newGroth16Proofs) hdrop).2.failOrder order.orderId "Expired before aggregation"
      exact ⟨⟨he.rows, he.fits, he.batches⟩, hknown⟩
    · cases hstep
      exact h.aggregate _ (Work.Known.drop haggregator rfl rfl (.refl _) (by simp [Work.keeping]))
  next work now hfiltering =>
    rw [hfiltering] at haggregator
    cases hstep
    exact h.aggregate _ (Work.Known.drop haggregator rfl rfl (by simp [Work.keeping]) (by simp [Work.keeping]))
  next => cases hstep

theorem Known.allOrders_ne_nil (hwork : work.Known s.db)
    (hnot : ¬((work.batch.aggregationState.map AggregationState.isInitial).getD true = true ∧ work.pending = [])) : work.allOrders ≠ [] := by
  intro hnil
  obtain ⟨horders, hpending⟩ := append_eq_nil_iff.mp hnil
  have hinitial : (work.batch.aggregationState.map AggregationState.isInitial).getD true ≠ true :=
    fun hinitial => hnot ⟨hinitial, map_eq_nil_iff.mp hpending⟩
  refine h.filled work.batch (mem_of_getElem? hwork.batch) ?_ horders
  cases hstate : work.batch.aggregationState with
  | none =>
    rw [hstate] at hinitial
    exact absurd rfl hinitial
  | some => rfl

theorem Known.checkFinalize {finalize : Bool} (hstep : s.checkFinalize finalize = some s') :
    Effect .nothing none s s' ∧ s'.Known := by
  have haggregator := h.aggregator
  unfold System.checkFinalize at hstep
  split at hstep
  next work hchecking =>
    rw [hchecking] at haggregator
    simp only at hstep
    split_ifs at hstep with hfinalize hnew
    · cases hstep
      exact h.aggregate _ ⟨haggregator, h.allOrders_ne_nil haggregator hfinalize.2⟩
    · cases hstep
      exact h.restartAggregator
    · cases hstep
      exact h.aggregate _ ⟨haggregator, fun hnil => hnew (by simp_all [Work.allOrders, Work.pending])⟩
  next => cases hstep

theorem Known.proveAssessor (hstep : s.proveAssessor proofs proofId = some s') :
    Effect .nothing none s s' ∧ s'.Known := by
  have haggregator := h.aggregator
  unfold System.proveAssessor at hstep
  split at hstep
  next work hassessing =>
    rw [hassessing] at haggregator
    split_ifs at hstep with hfresh
    split at hstep
    next =>
      cases hstep
      exact h.restartAggregator
    next fills hfills =>
      cases hstep
      exact ⟨.quiet rfl, h.step (.quiet rfl) (.inl fun _ h => h) (.inl ⟨.refl _, nothing_ne_proof⟩) (.inr haggregator) (.inl rfl)⟩
  next => cases hstep

theorem Known.proveSetBuilder {valid : ProofId → Bool} {isInitial : Bool}
    (hstep : s.proveSetBuilder proofs valid proofId isInitial = some s') : Effect .nothing none s s' ∧ s'.Known := by
  have haggregator := h.aggregator
  unfold System.proveSetBuilder at hstep
  split at hstep
  next work assessorProofId hbuilding =>
    rw [hbuilding] at haggregator
    simp only at hstep
    split_ifs at hstep with hvalid
    · cases hstep
      exact h.restartAggregator
    · cases hstep
      exact h.aggregate _ haggregator
  next => cases hstep

theorem Known.updateBatch (hstep : s.updateBatch = some s') : Effect .nothing (s.growth .updateBatch) s s' ∧ s'.Known := by
  have haggregator := h.aggregator
  unfold System.updateBatch at hstep
  split at hstep
  next work assessorProofId state hupdating =>
    rw [hupdating] at haggregator
    rw [growth_updating hupdating]
    obtain ⟨hwork, hne⟩ := haggregator
    split at hstep
    next db hok =>
      cases hstep
      obtain ⟨hbatches, hrows, hfits, hsettled⟩ := updateBatch_ok (g := ⟨work.batchId, state, work.pending, assessorProofId⟩) hok hwork.batch
      have hgrown : s.db.BatchStep (some ⟨work.batchId, state, work.pending, assessorProofId⟩) db :=
        .grown _ work.batch rfl hwork.batch hwork.aggregating hbatches
      refine ⟨⟨hrows, hfits, hgrown⟩, hfits h.fits, h.oneActive.step hgrown, ?_, h.recovering.follows hrows fun _ h => h,
        h.monitors.follows hrows nothing_ne_proof (.refl _), ?_, h.submitter.follows hgrown⟩
      · refine h.filled_of_step hgrown fun g batch hg hget => ?_
        cases hg
        obtain rfl := Option.some.inj (hwork.batch.symm.trans hget)
        exact hne
      · cases assessorProofId with
        | none => trivial
        | some proofId => exact ⟨_, by rw [hbatches]; exact getElem?_set_self hwork.batch _, by simp [Batch.grown]⟩
    next =>
      cases hstep
      obtain ⟨he, hknown⟩ := h.restartAggregator
      exact ⟨⟨he.rows, he.fits, .same rfl⟩, hknown⟩
  next => cases hstep

/-! ### Batches that are closed -/

theorem Known.moveBatch {id : BatchId} {f : Batch → Batch} {batch : Batch} (hget : s.db.batches[id]? = some batch)
    (hold : batch.status ≠ .aggregating) (hcontent : (f batch).SameContent batch)
    (hstate : (f batch).aggregationState.isSome = batch.aggregationState.isSome) (hnew : ¬active (f batch))
    (haggregator : aggregator = s.aggregator ∨ aggregator = .idle)
    (hsubmitter : submitter = s.submitter ∨ submitter = .idle ∨ ∃ copy, copy.SameContent (f batch) ∧ submitter = .submitting id copy) :
    Effect .nothing none s { s with db := { s.db with batches := s.db.batches.set id (f batch) }, aggregator, submitter } ∧
      { s with db := { s.db with batches := s.db.batches.set id (f batch) }, aggregator, submitter }.Known := by
  have he : Effect .nothing none s { s with db := { s.db with batches := s.db.batches.set id (f batch) }, aggregator, submitter } :=
    ⟨.of_orders_eq rfl, fun h => h, .moved id batch (f batch) hget rfl hcontent hstate hold hnew⟩
  refine ⟨he, h.step he (.inl fun _ h => h) (.inl ⟨.refl _, nothing_ne_proof⟩) ?_ ?_⟩
  · obtain heq | rfl := haggregator
    · exact .inl heq
    · exact .inr trivial
  · obtain heq | rfl | ⟨copy, hcopy, rfl⟩ := hsubmitter
    · exact .inl heq
    · exact .inr trivial
    · exact .inr ⟨f batch, getElem?_set_self hget _, hnew, hcopy⟩

theorem Known.attempt_setBatchFailure {id : BatchId} (hbatch : ∃ batch, s.db.batches[id]? = some batch ∧ batch.status ≠ .aggregating)
    (haggregator : aggregator = s.aggregator ∨ aggregator = .idle)
    (hsubmitter : submitter = s.submitter ∨ submitter = .idle) :
    Effect .nothing none s { s with db := s.db.attempt (s.db.setBatchFailure id err), aggregator, submitter } ∧
      { s with db := s.db.attempt (s.db.setBatchFailure id err), aggregator, submitter }.Known := by
  obtain ⟨batch, hget, hold⟩ := hbatch
  have hok : s.db.setBatchFailure id err =
      .ok { s.db with batches := s.db.batches.set id { batch with status := .failed, errorMsg := some err } } := by
    simp only [setBatchFailure, updateBatchRow, hget]
  rw [hok]
  exact h.moveBatch (f := fun batch => { batch with status := .failed, errorMsg := some err }) hget hold ⟨rfl, rfl, rfl, rfl, rfl⟩ rfl (by simp [active])
    haggregator (hsubmitter.imp_right .inl)

theorem Known.failCompression (hstep : s.failCompression err = some s') : Effect .nothing none s s' ∧ s'.Known := by
  have haggregator := h.aggregator
  unfold System.failCompression at hstep
  split at hstep
  next batchId hcompressing =>
    rw [hcompressing] at haggregator
    cases hstep
    exact h.attempt_setBatchFailure haggregator (.inr rfl) (.inl rfl)
  next => cases hstep

theorem Known.completeBatch {g16ProofId : ProofId} (hstep : s.completeBatch g16ProofId = some s') :
    Effect .nothing none s s' ∧ s'.Known := by
  have haggregator := h.aggregator
  unfold System.completeBatch at hstep
  split at hstep
  next batchId hcompressing =>
    rw [hcompressing] at haggregator
    cases hstep
    cases hok : s.db.completeBatch batchId g16ProofId with
    | error => exact h.restartAggregator
    | ok db =>
      obtain ⟨batch, hread, hok⟩ := bind_ok_iff.mp hok
      obtain ⟨_, -, hok⟩ := bind_ok_iff.mp hok
      obtain ⟨batch', hget, rfl⟩ := updateBatchRow_ok hok
      obtain ⟨old, hgetold, hold⟩ := haggregator
      obtain rfl := Option.some.inj (hgetold.symm.trans hget)
      exact h.moveBatch
        (f := fun batch =>
          { batch with
            status := .complete
            aggregationState := batch.aggregationState.map fun state => { state with groth16ProofId := some g16ProofId } })
        hget hold ⟨rfl, rfl, by rw [Option.map_map]; rfl, rfl, rfl⟩ (Option.isSome_map ..) (by simp [active]) (.inr rfl) (.inl rfl)
  next => cases hstep

/-! ### Submission -/

theorem Known.restartSubmitter : Effect .nothing none s s.restartSubmitter ∧ s.restartSubmitter.Known :=
  ⟨.quiet rfl, h.step (.quiet rfl) (.inl fun _ h => h) (.inl ⟨.refl _, nothing_ne_proof⟩) (.inl rfl) (.inr trivial)⟩

theorem Known.takeCompleteBatch {batchId : BatchId} (hstep : s.takeCompleteBatch batchId = some s') :
    Effect .nothing none s s' ∧ s'.Known := by
  unfold System.takeCompleteBatch at hstep
  split at hstep
  next batch hidle hget =>
    split_ifs at hstep with hstatus
    have hupdate : s.db.updateBatchRow batchId (fun batch => { batch with status := .pendingSubmission }) =
        .ok { s.db with batches := s.db.batches.set batchId { batch with status := .pendingSubmission } } := by
      simp only [updateBatchRow, hget]
    have hmove {submitter : Submitter} (hsubmitter : submitter = s.submitter ∨ submitter = .idle ∨
        ∃ copy, copy.SameContent { batch with status := .pendingSubmission } ∧ submitter = .submitting batchId copy) :=
      h.moveBatch (f := fun batch => { batch with status := .pendingSubmission }) hget (by rw [hstatus]; decide) ⟨rfl, rfl, rfl, rfl, rfl⟩ rfl
        (by simp [active]) (.inl rfl) hsubmitter
    rw [getCompleteBatch, hupdate] at hstep
    split at hstep
    next db copy hok =>
      obtain ⟨rfl, hread⟩ := Prod.mk.inj (Except.ok.inj hok)
      cases hstep
      obtain rfl := Option.some.inj ((getElem?_set_self hget _).symm.trans (getBatch_ok hread))
      exact hmove (.inr (.inr ⟨_, .refl _, rfl⟩))
    next db hok =>
      obtain ⟨rfl, -⟩ := Prod.mk.inj (Except.ok.inj hok)
      cases hstep
      exact hmove (.inl rfl)
    next hok => cases hok
  next => cases hstep

theorem Known.failSubmittedOrder (hstep : s.failSubmittedOrder id failure = some s') :
    Effect .nothing none s s' ∧ s'.Known := by
  unfold System.failSubmittedOrder at hstep
  split at hstep
  next =>
    split_ifs at hstep with hmem
    cases hstep
    exact h.failOrder id failure
  next => cases hstep

theorem Known.completeOrder (hstep : s.completeOrder id = some s') : Effect .nothing none s s' ∧ s'.Known := by
  unfold System.completeOrder at hstep
  split at hstep
  next =>
    split_ifs at hstep with hmem
    cases hstep
    have hw : (s.db.attempt (s.db.setOrderComplete id)).Writes .nothing s.db := .attempt fun db' hok => writes_setOrderComplete .nothing hok
    exact ⟨.of_writes hw, h.writes hw⟩
  next => cases hstep

theorem Known.finishSubmission (hstep : s.finishSubmission = some s') : Effect .nothing none s s' ∧ s'.Known := by
  have hsubmitter := h.submitter
  unfold System.finishSubmission at hstep
  split at hstep
  next batchId copy hsubmitting =>
    rw [hsubmitting] at hsubmitter
    cases hstep
    obtain ⟨batch, hget, hclosed, -⟩ := hsubmitter
    have hok : s.db.setBatchSubmitted batchId = .ok { s.db with batches := s.db.batches.set batchId { batch with status := .submitted } } := by
      simp only [setBatchSubmitted, updateBatchRow, hget]
    rw [hok]
    exact h.moveBatch (f := fun batch => { batch with status := .submitted }) hget (not_active_iff.mp hclosed).1 ⟨rfl, rfl, rfl, rfl, rfl⟩ rfl
      (by simp [active]) (.inl rfl) (.inr (.inl rfl))
  next => cases hstep

theorem Known.failSubmission (hstep : s.failSubmission err = some s') : Effect .nothing none s s' ∧ s'.Known := by
  have hsubmitter := h.submitter
  unfold System.failSubmission at hstep
  split at hstep
  next batchId copy hsubmitting =>
    rw [hsubmitting] at hsubmitter
    cases hstep
    obtain ⟨batch, hget, hclosed, -⟩ := hsubmitter
    exact h.attempt_setBatchFailure ⟨batch, hget, (not_active_iff.mp hclosed).1⟩ (.inl rfl) (.inr rfl)
  next => cases hstep

/-! ### Expired orders -/

theorem Known.reaper (ids : List OrderId) : { s with reaper := ids }.Known :=
  h.step (.quiet rfl) (.inl fun _ h => h) (.inl ⟨.refl _, nothing_ne_proof⟩) (.inl rfl) (.inl rfl)

theorem Known.reapNext (hstep : s.reapNext = some s') : Effect .nothing none s s' ∧ s'.Known := by
  unfold System.reapNext at hstep
  split at hstep
  next => cases hstep
  next id ids _ =>
    cases hstep
    obtain ⟨he, hknown⟩ := (h.reaper ids).failOrder id "Order expired in reaper"
    exact ⟨⟨he.rows, he.fits, he.batches⟩, hknown⟩

/-! ### Every step -/

theorem Known.event {event : Event} (hstep : s.step proofs event = some s') :
    Effect (s.touched event) (s.growth event) s s' ∧ s'.Known := by
  cases event with
  | accept id request lockPrice =>
    cases hstep
    have hw : (s.db.attempt (s.db.insertAcceptedRequest id request lockPrice)).Writes .nothing s.db :=
      .attempt fun db' hok => writes_insertAcceptedRequest .nothing hok
    exact ⟨.of_writes hw, h.writes hw⟩
  | skip id request =>
    cases hstep
    have hw := s.db.writes_insertSkippedRequest .nothing id request
    exact ⟨.of_writes hw, h.writes hw⟩
  | findActiveProofs ids => exact h.findActiveProofs hstep
  | recoverNext => exact h.recoverNext hstep
  | takeProvingOrder id => exact h.takeProvingOrder hstep
  | restartProving => exact h.restartProving hstep
  | createStarkSession i proofId =>
    obtain ⟨m, hi, hresult⟩ := h.createStarkSession hstep
    rw [touched, hi]
    exact hresult
  | compress i proofId => exact h.compress hstep
  | finishProof i =>
    obtain ⟨m, hi, hresult⟩ := h.finishProof hstep
    rw [touched, hi]
    exact hresult
  | failProof i failure => exact h.failProof hstep
  | abortProof i =>
    cases hstep
    exact h.abortProof i
  | restartAggregator =>
    cases hstep
    exact h.restartAggregator
  | currentBatch => exact h.currentBatch hstep
  | readBatch now => exact h.readBatch hstep
  | collectProofs ids => exact h.collectProofs hstep
  | collectGroth16Proofs ids => exact h.collectGroth16Proofs hstep
  | filterExpired => exact h.filterExpired hstep
  | checkFinalize finalize => exact h.checkFinalize hstep
  | proveAssessor proofId => exact h.proveAssessor hstep
  | proveSetBuilder valid proofId isInitial => exact h.proveSetBuilder hstep
  | updateBatch => exact h.updateBatch hstep
  | completeBatch g16ProofId => exact h.completeBatch hstep
  | failCompression err => exact h.failCompression hstep
  | restartSubmitter =>
    cases hstep
    exact h.restartSubmitter
  | takeCompleteBatch batchId => exact h.takeCompleteBatch hstep
  | failSubmittedOrder id failure => exact h.failSubmittedOrder hstep
  | completeOrder id => exact h.completeOrder hstep
  | finishSubmission => exact h.finishSubmission hstep
  | failSubmission err => exact h.failSubmission hstep
  | findExpired cutoff ids =>
    simp only [System.step, System.findExpired] at hstep
    split_ifs at hstep
    cases hstep
    exact ⟨.quiet rfl, h.reaper ids⟩
  | reapNext => exact h.reapNext hstep

end

theorem Run.known {allowed : System → Event → Prop} (hrun : Run proofs allowed s) : s.Known := by
  induction hrun with
  | start => exact start_known
  | step _ _ hstep ih => exact (ih.event hstep).2

end System

end VerifiableCompute.Broker
