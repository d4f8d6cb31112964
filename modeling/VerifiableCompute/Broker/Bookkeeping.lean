import VerifiableCompute.Broker.Reachable

/-! The books over the batches. As long as no task says of an order in a batch that it waits for the
aggregator, and the numbers stay in range, every order is in one batch at most, and the fees and the
deadline of a batch are those of its orders. A task that was started again says so when it is late. -/

namespace VerifiableCompute.Broker

open Lib List

def Event.ofAggregator : Event → Bool
  | .restartAggregator | .currentBatch | .readBatch _ | .collectProofs _ | .collectGroth16Proofs _ | .filterExpired | .checkFinalize _
  | .proveAssessor _ | .proveSetBuilder .. | .updateBatch | .completeBatch _ | .failCompression _ => true
  | _ => false

theorem System.aggregator_eq {s s' : System} {proofs : Proofs} {event : Event} (hevent : event.ofAggregator = false)
    (hstep : s.step proofs event = some s') : s'.aggregator = s.aggregator ∧ s'.assessors = s.assessors := by
  cases event <;> cases hevent
  all_goals
    simp only [step, findActiveProofs, recoverNext, takeProvingOrder, restartProving, createStarkSession, compress, finishProof, failProof,
      takeCompleteBatch, failSubmittedOrder, completeOrder, finishSubmission, failSubmission, findExpired, reapNext] at hstep
    repeat' split at hstep
    all_goals cases hstep <;> exact ⟨rfl, rfl⟩

namespace Db

variable (db : Db)

def lockPrice (id : OrderId) : ℕ := ((db.orders.get? id).bind Order.lockPrice).elim 0 BitVec.toNat

def expiration (id : OrderId) : ℤ := ((db.orders.get? id).bind Order.expireTimestamp).elim 0 fun t => (t.toNat : ℤ)

def batchedOrders : List OrderId := db.batches.flatMap Batch.orders

structure Books (db : Db) : Prop where
  oneActive : db.OneActive
  nodup : db.batchedOrders.Nodup
  /-- Every order of a batch has a price and an expiration. -/
  known : ∀ batch ∈ db.batches, ∀ id ∈ batch.orders, ∃ order, db.orders.get? id = some order ∧ order.lockPrice.isSome ∧ order.expireTimestamp.isSome
  fees : ∀ batch ∈ db.batches, batch.fees.toNat = (batch.orders.map db.lockPrice).sum
  deadline : ∀ batch ∈ db.batches, batch.deadline = (batch.orders.map db.expiration).min?

end Db

/-- A task speaks of an order in no batch, and an update is in range. -/
structure System.Careful (s : System) (event : Event) : Prop where
  notBatched : ∀ id, s.touched event = .status id → id ∉ s.db.batchedOrders
  feesFit : ∀ g, s.growth event = some g → ∀ batch, s.db.batches[g.batchId]? = some batch →
    batch.fees.toNat + (g.orders.map fun o => o.fee.toNat).sum < 2 ^ 256
  expirationsFit : ∀ g, s.growth event = some g → ∀ o ∈ g.orders, o.expiration.toNat < 2 ^ 63

instance (s : System) (event : Event) : Decidable (s.Careful event) :=
  decidable_of_iff
    ((∀ id ∈ s.db.batchedOrders, s.touched event ≠ .status id) ∧ ∀ g ∈ s.growth event,
      (∀ batch ∈ s.db.batches[g.batchId]?, batch.fees.toNat + (g.orders.map fun o => o.fee.toNat).sum < 2 ^ 256) ∧
        ∀ o ∈ g.orders, o.expiration.toNat < 2 ^ 63)
    ⟨fun h => ⟨fun id htouched hid => h.1 id hid htouched, fun g hg batch hget => (h.2 g hg).1 batch hget, fun g hg => (h.2 g hg).2⟩,
      fun h => ⟨fun id hid htouched => h.notBatched id htouched hid, fun g hg => ⟨fun batch hget => h.feesFit g hg batch hget, h.expirationsFit g hg⟩⟩⟩

/-- The orders of a batch as the aggregator knew them. -/
structure Batch.Account (db : Db) (batch : Batch) (orders : List AggregationOrder) : Prop where
  orderIds : orders.map AggregationOrder.orderId = batch.orders
  holds : ∀ o ∈ orders, ∃ order, db.Holds o order
  fees : batch.fees.toNat = (orders.map fun o => o.fee.toNat).sum
  deadline : batch.deadline = (orders.map fun o => (o.expiration.toNat : ℤ)).min?

section Account

variable {db db' : Db} {batch : Batch} {orders : List AggregationOrder} {touched : Touched}

theorem Batch.Account.follows (h : batch.Account db orders) (hrows : db'.RowsFollow touched db) : batch.Account db' orders where
  orderIds := h.orderIds
  holds o ho := by
    obtain ⟨order, hholds⟩ := h.holds o ho
    obtain ⟨order', hholds', -⟩ := hholds.follows hrows
    exact ⟨order', hholds'⟩
  fees := h.fees
  deadline := h.deadline

theorem Batch.Account.sameContent {batch' : Batch} (h : batch.Account db orders) (hsame : batch'.SameContent batch) : batch'.Account db orders where
  orderIds := h.orderIds.trans hsame.orders.symm
  holds := h.holds
  fees := by rw [hsame.fees, h.fees]
  deadline := hsame.deadline.trans h.deadline

variable {o : AggregationOrder} {order : Order}

theorem Db.Holds.lockPrice_eq (h : db.Holds o order) : db.lockPrice o.orderId = o.fee.toNat := by
  rw [Db.lockPrice, h.row, Option.bind_some, h.lockPrice, Option.elim_some]

theorem Db.Holds.expiration_eq (h : db.Holds o order) : db.expiration o.orderId = (o.expiration.toNat : ℤ) := by
  rw [Db.expiration, h.row, Option.bind_some, h.expireTimestamp, Option.elim_some]

theorem Batch.Account.fees_eq (h : batch.Account db orders) : batch.fees.toNat = (batch.orders.map db.lockPrice).sum := by
  rw [h.fees, ← h.orderIds, map_map]
  refine congrArg sum (map_congr_left fun o ho => ?_)
  obtain ⟨order, hholds⟩ := h.holds o ho
  exact hholds.lockPrice_eq.symm

theorem Batch.Account.deadline_eq (h : batch.Account db orders) : batch.deadline = (batch.orders.map db.expiration).min? := by
  rw [h.deadline, ← h.orderIds, map_map]
  refine congrArg min? (map_congr_left fun o ho => ?_)
  obtain ⟨order, hholds⟩ := h.holds o ho
  exact hholds.expiration_eq.symm

theorem foldl_fees (orders : List AggregationOrder) (fees : BitVec 256) (h : fees.toNat + (orders.map fun o => o.fee.toNat).sum < 2 ^ 256) :
    (orders.foldl (fun sum order => sum + order.fee) fees).toNat = fees.toNat + (orders.map fun o => o.fee.toNat).sum := by
  induction orders generalizing fees with
  | nil => rfl
  | cons o orders ih =>
    rw [map_cons, sum_cons] at h ⊢
    have hadd : (fees + o.fee).toNat = fees.toNat + o.fee.toNat := BitVec.toNat_add_of_lt (by omega)
    rw [foldl_cons, ih (fees + o.fee) (by omega), hadd]
    omega

theorem toInt_of_lt {t : BitVec 64} (h : t.toNat < 2 ^ 63) : t.toInt = t.toNat := by
  rw [BitVec.toInt_eq_toNat_cond, if_pos (by omega)]

theorem foldl_deadline (orders : List AggregationOrder) (h : ∀ o ∈ orders, o.expiration.toNat < 2 ^ 63) (deadline : Option ℤ) :
    orders.foldl (fun earliest order => some (min (earliest.getD Db.i64Max) order.expiration.toInt)) deadline =
      (deadline.toList ++ orders.map fun o => (o.expiration.toNat : ℤ)).min? := by
  induction orders generalizing deadline with
  | nil => cases deadline <;> rfl
  | cons o orders ih =>
    have ho := h o mem_cons_self
    rw [foldl_cons, ih (fun o ho => h o (mem_cons_of_mem _ ho)), toInt_of_lt ho, map_cons]
    cases deadline with
    | none =>
      have hmin : min Db.i64Max (o.expiration.toNat : ℤ) = o.expiration.toNat := min_eq_right (by unfold Db.i64Max; omega)
      rw [Option.getD_none, hmin]
      rfl
    | some t =>
      rw [Option.getD_some, Option.toList_some, Option.toList_some, singleton_append, singleton_append, min?_cons', min?_cons',
        foldl_cons]

theorem Batch.Account.grown {g : Growth} (h : batch.Account db orders) (hg : ∀ o ∈ g.orders, ∃ order, db.Holds o order)
    (hfees : batch.fees.toNat + (g.orders.map fun o => o.fee.toNat).sum < 2 ^ 256) (hexpirations : ∀ o ∈ g.orders, o.expiration.toNat < 2 ^ 63)
    (hne : orders ++ g.orders ≠ []) : (batch.grown g).Account db (orders ++ g.orders) where
  orderIds := by rw [map_append, h.orderIds, Batch.grown]
  holds o ho := (mem_append.mp ho).elim (h.holds o) (hg o)
  fees := by
    rw [Batch.grown, foldl_fees g.orders batch.fees hfees, h.fees, map_append, sum_append]
  deadline := by
    -- The deadline so far stands for the orders so far.
    have hmin : (batch.deadline.toList ++ g.orders.map fun o => (o.expiration.toNat : ℤ)).min? =
        ((orders ++ g.orders).map fun o => (o.expiration.toNat : ℤ)).min? := by
      rw [h.deadline, map_append]
      cases orders with
      | nil => rfl
      | cons o orders =>
        rw [map_cons, min?_cons', Option.toList_some, singleton_append, cons_append, min?_cons', min?_cons',
          foldl_append]
    obtain ⟨t, ht⟩ : ∃ t, ((orders ++ g.orders).map fun o => (o.expiration.toNat : ℤ)).min? = some t := by
      cases hall : orders ++ g.orders with
      | nil => exact absurd hall hne
      | cons o rest => exact ⟨_, min?_cons'⟩
    rw [ht, Batch.grown, Db.newDeadline, foldl_deadline g.orders hexpirations, hmin, ht, Option.getD_some]

end Account

/-- The orders that the aggregator may add to the batch. -/
def Aggregator.held : Aggregator → List AggregationOrder
  | .idle | .reading _ | .compressing _ => []
  | .filtering work _ newProofs newGroth16Proofs => (work.keeping newProofs newGroth16Proofs).pending
  | .collecting work _ | .collectingGroth16 work _ | .checking work | .assessing work | .building work _ | .updating work _ _ => work.pending

/-- An order that waits for the aggregator is settled by nobody yet. -/
def Db.Waits (db : Db) (o : AggregationOrder) : Prop := ∃ order, db.orders.get? o.orderId = some order ∧ ¬order.status.Settled

namespace System

variable {s s' : System} {proofs : Proofs} {event : Event}
variable {db db' : Db} {work : Work}

theorem collected_waits {p : Order → Bool} {ids : List OrderId} {os : List AggregationOrder} (hfinds : db.Finds p ids)
    (hp : ∀ order, p order = true → ¬order.status.Settled) (hmap : ids.mapM db'.aggregationOrder = .ok os) : ∀ o ∈ os, db.Waits o := by
  intro o ho
  obtain ⟨hids, -⟩ := Db.mapM_aggregationOrder_ok hmap
  obtain ⟨order, hget, hpo⟩ := (Db.mem_finds hfinds).mp (hids ▸ mem_map_of_mem ho)
  exact ⟨order, hget, hp order hpo⟩

section Held

variable {ids : List OrderId} {o : AggregationOrder} (ho : o ∈ s'.aggregator.held)

include ho

theorem held_of_collectProofs (h : s.Known) (hstep : s.collectProofs ids = some s') : o ∈ s.aggregator.held ∨ s.db.Waits o := by
  have hknown := h.aggregator
  simp only [System.collectProofs] at hstep
  split at hstep
  next work now hcollecting =>
    rw [hcollecting] at hknown
    split_ifs at hstep with hfinds
    split at hstep
    next db proofs hok =>
      cases hstep
      obtain ⟨db', hset, hok⟩ := bind_ok_iff.mp hok
      obtain ⟨rfl, hmap⟩ := Prod.mk.inj (Except.ok.inj hok)
      have ho : o ∈ proofs := by simpa [Aggregator.held, Work.pending, hknown.2.2] using ho
      refine .inr (collected_waits hfinds (fun order hp => ?_) hmap o ho)
      obtain hstatus | hstatus : order.status = .pendingAgg ∨ order.status = .aggregating := of_decide_eq_true hp
      · simp [OrderStatus.Settled, hstatus]
      · simp [OrderStatus.Settled, hstatus]
    all_goals
      cases hstep
      cases ho
  next => cases hstep

theorem held_of_collectGroth16Proofs (h : s.Known) (hstep : s.collectGroth16Proofs ids = some s') :
    o ∈ s.aggregator.held ∨ s.db.Waits o := by
  have hknown := h.aggregator
  simp only [System.collectGroth16Proofs] at hstep
  split at hstep
  next work now hcollecting =>
    rw [hcollecting] at hknown ⊢
    split_ifs at hstep with hfinds
    split at hstep
    next db proofs hok =>
      cases hstep
      obtain ⟨db', hset, hok⟩ := bind_ok_iff.mp hok
      obtain ⟨rfl, hmap⟩ := Prod.mk.inj (Except.ok.inj hok)
      have ho : o ∈ work.newProofs ∨ o ∈ proofs := by simpa [Aggregator.held, Work.pending, Work.keeping, hknown.2] using ho
      obtain ho | ho := ho
      · exact .inl (mem_append_left _ ho)
      · refine .inr (collected_waits hfinds (fun order hp => ?_) hmap o ho)
        have hstatus : order.status = .skipAggregation := of_decide_eq_true hp
        simp [OrderStatus.Settled, hstatus]
    all_goals
      cases hstep
      cases ho
  next => cases hstep

theorem held_of_filterExpired (hstep : s.filterExpired = some s') : o ∈ s.aggregator.held := by
  simp only [System.filterExpired] at hstep
  split at hstep
  next work now order newProofs newGroth16Proofs hfiltering =>
    rw [hfiltering]
    split_ifs at hstep <;> obtain rfl := Option.some.inj hstep <;>
      simp only [System.failOrder, Aggregator.held, Work.pending, Work.keeping, mem_append, mem_cons] at ho ⊢ <;> tauto
  next work now order newGroth16Proofs hfiltering =>
    rw [hfiltering]
    split_ifs at hstep <;> obtain rfl := Option.some.inj hstep <;>
      simp only [System.failOrder, Aggregator.held, Work.pending, Work.keeping, mem_append, mem_cons] at ho ⊢ <;> tauto
  next work now hfiltering =>
    rw [hfiltering]
    cases hstep
    simpa [Aggregator.held, Work.pending, Work.keeping] using ho
  next => cases hstep

end Held

theorem held_of_step (h : s.Known) (hstep : s.step proofs event = some s') :
    ∀ o ∈ s'.aggregator.held, o ∈ s.aggregator.held ∨ s.db.Waits o := by
  intro o ho
  cases hevent : event.ofAggregator with
  | false =>
    rw [(aggregator_eq hevent hstep).1] at ho
    exact .inl ho
  | true =>
    cases event with
    | collectProofs ids => exact held_of_collectProofs ho h hstep
    | collectGroth16Proofs ids => exact held_of_collectGroth16Proofs ho h hstep
    | filterExpired => exact .inl (held_of_filterExpired ho hstep)
    | readBatch now =>
      simp only [step, System.readBatch, restartAggregator] at hstep
      repeat' split at hstep
      all_goals cases hstep <;> cases ho
    | checkFinalize finalize =>
      refine .inl ?_
      simp only [step, System.checkFinalize, restartAggregator] at hstep
      split at hstep
      next work hchecking =>
        rw [hchecking]
        split_ifs at hstep <;> obtain rfl := Option.some.inj hstep <;> first | exact ho | cases ho
      next => cases hstep
    | proveAssessor proofId =>
      refine .inl ?_
      simp only [step, System.proveAssessor, restartAggregator] at hstep
      split at hstep
      next work hassessing =>
        rw [hassessing]
        split_ifs at hstep
        split at hstep <;> obtain rfl := Option.some.inj hstep <;> first | exact ho | cases ho
      next => cases hstep
    | proveSetBuilder valid proofId isInitial =>
      refine .inl ?_
      simp only [step, System.proveSetBuilder, restartAggregator] at hstep
      split at hstep
      next work assessorProofId hbuilding =>
        rw [hbuilding]
        split_ifs at hstep <;> obtain rfl := Option.some.inj hstep <;> first | exact ho | cases ho
      next => cases hstep
    | updateBatch =>
      simp only [step, System.updateBatch, restartAggregator] at hstep
      split at hstep
      next work assessorProofId state hupdating =>
        split at hstep
        · cases hstep
          cases assessorProofId <;> cases ho
        · cases hstep
          cases ho
      next => cases hstep
    | currentBatch =>
      refine .inl ?_
      simp only [step, System.currentBatch] at hstep
      split at hstep
      next hidle =>
        split at hstep <;> obtain rfl := Option.some.inj hstep <;> first | cases ho | exact ho
      next => cases hstep
    | restartAggregator | completeBatch | failCompression =>
      simp only [step, System.completeBatch, System.failCompression, restartAggregator] at hstep
      repeat' split at hstep
      all_goals cases hstep <;> cases ho
    | _ => cases hevent

/-- The books, with what keeps them. -/
structure Tidy (s : System) : Prop where
  settled : ∀ id ∈ s.db.batchedOrders, ∃ order, s.db.orders.get? id = some order ∧ order.status.Settled
  nodup : s.db.batchedOrders.Nodup
  accounts : ∀ batch ∈ s.db.batches, ∃ orders, batch.Account s.db orders
  held : ∀ o ∈ s.aggregator.held, o.orderId ∉ s.db.batchedOrders

theorem Tidy.books (h : s.Tidy) (hknown : s.Known) : s.db.Books where
  oneActive := hknown.oneActive
  nodup := h.nodup
  known batch hbatch id hid := by
    obtain ⟨orders, haccount⟩ := h.accounts batch hbatch
    obtain ⟨o, ho, rfl⟩ := mem_map.mp (haccount.orderIds.symm ▸ hid)
    obtain ⟨order, hholds⟩ := haccount.holds o ho
    exact ⟨order, hholds.row, by rw [hholds.lockPrice]; rfl, by rw [hholds.expireTimestamp]; rfl⟩
  fees batch hbatch := by
    obtain ⟨orders, haccount⟩ := h.accounts batch hbatch
    exact haccount.fees_eq
  deadline batch hbatch := by
    obtain ⟨orders, haccount⟩ := h.accounts batch hbatch
    exact haccount.deadline_eq

theorem start_tidy : start.Tidy := ⟨nofun, .nil, nofun, nofun⟩

theorem pending_nodup (h : work.Known db) : (work.pending.map AggregationOrder.orderId).Nodup := by
  rw [Work.pending, map_append]
  refine nodup_append.mpr ⟨h.nodup, h.nodupGroth16, fun id hid id' hid' heq => ?_⟩
  obtain ⟨o, ho, rfl⟩ := mem_map.mp hid
  obtain ⟨o', ho', rfl⟩ := mem_map.mp hid'
  obtain ⟨order, hholds, htype⟩ := h.newProofs o ho
  obtain ⟨order', hholds', htype'⟩ := h.newGroth16Proofs o' ho'
  have hrow := hholds'.row
  rw [← heq, hholds.row] at hrow
  exact htype' (Option.some.inj hrow ▸ htype)

theorem pending_holds (h : work.Known db) : ∀ o ∈ work.pending, ∃ order, db.Holds o order := by
  intro o ho
  obtain ho | ho := mem_append.mp ho
  · obtain ⟨order, hholds, -⟩ := h.newProofs o ho
    exact ⟨order, hholds⟩
  · obtain ⟨order, hholds, -⟩ := h.newGroth16Proofs o ho
    exact ⟨order, hholds⟩

theorem batchedOrders_eq (hstep : db.BatchStep none db') : db'.batchedOrders = db.batchedOrders := by
  cases hstep with
  | same h => rw [Db.batchedOrders, h, Db.batchedOrders]
  | opened h hnone =>
    rw [Db.batchedOrders, h, List.flatMap_append, List.flatMap_singleton]
    exact List.append_nil _
  | moved id old new hget h hcontent hstate hold hnew =>
    have horders : (db.batches.set id new).map Batch.orders = db.batches.map Batch.orders := by
      obtain ⟨hlt, hget⟩ := List.getElem?_eq_some_iff.mp hget
      rw [List.map_set, hcontent.orders, ← hget, ← List.map_set, List.set_getElem_self]
    rw [Db.batchedOrders, h, List.flatMap_def, horders, ← List.flatMap_def, Db.batchedOrders]
  | grown g batch hgrowth => cases hgrowth

theorem batchedOrders_grown {batches : List Batch} {g : Growth} {batch : Batch} (hget : batches[g.batchId]? = some batch) :
    ((batches.set g.batchId (batch.grown g)).flatMap Batch.orders).Perm (batches.flatMap Batch.orders ++ g.orders.map AggregationOrder.orderId) := by
  obtain ⟨id, state, orders, assessorProofId⟩ := g
  induction batches generalizing id with
  | nil => cases hget
  | cons x l ih =>
    cases id with
    | zero =>
      cases hget
      rw [set_cons_zero, flatMap_cons, flatMap_cons, Batch.grown, append_assoc, append_assoc]
      exact perm_append_comm.append_left _
    | succ id =>
      rw [set_cons_succ, flatMap_cons, flatMap_cons, append_assoc]
      exact (ih id hget).append_left _

theorem growth_eq_none (hevent : event ≠ .updateBatch) : s.growth event = none := by
  cases event <;> first | rfl | exact absurd rfl hevent

theorem Tidy.quiet (h : s.Tidy) (hknown : s.Known) (hcareful : s.Careful event) (hstep : s.step proofs event = some s')
    (hevent : event ≠ .updateBatch) : s'.Tidy := by
  obtain ⟨he, hknown'⟩ := hknown.event hstep
  rw [growth_eq_none hevent] at he
  have hbatched := batchedOrders_eq he.batches
  refine ⟨fun id hid => ?_, hbatched ▸ h.nodup, fun batch' hmem => ?_, fun o ho hid => ?_⟩
  · rw [hbatched] at hid
    obtain ⟨order, hget, hsettled⟩ := h.settled id hid
    have hne : order.status ≠ .skipped := by
      obtain hstatus | hstatus | hstatus := hsettled <;> rw [hstatus] <;> decide
    obtain ⟨order', hget', hfollows⟩ := he.rows id order hget hne
    exact ⟨order', hget', hfollows.settled (fun htouched => hcareful.notBatched id htouched hid) hsettled⟩
  · obtain ⟨id, hid⟩ := getElem?_of_mem hmem
    obtain hget | ⟨rfl, -, -⟩ | ⟨batch, hget, hcontent, -⟩ | ⟨g, batch, hg, -⟩ := he.batches.cases_of_mem hid
    · obtain ⟨orders, haccount⟩ := h.accounts batch' (mem_of_getElem? hget)
      exact ⟨orders, haccount.follows he.rows⟩
    · exact ⟨[], rfl, nofun, rfl, rfl⟩
    · obtain ⟨orders, haccount⟩ := h.accounts batch (mem_of_getElem? hget)
      exact ⟨orders, (haccount.follows he.rows).sameContent hcontent⟩
    · cases hg
  · rw [hbatched] at hid
    obtain hheld | ⟨order, hget, hunsettled⟩ := held_of_step hknown hstep o ho
    · exact h.held o hheld hid
    · obtain ⟨order', hget', hsettled⟩ := h.settled o.orderId hid
      obtain rfl := Option.some.inj (hget.symm.trans hget')
      exact hunsettled hsettled

theorem Tidy.update (h : s.Tidy) (hknown : s.Known) (hcareful : s.Careful .updateBatch) (hstep : s.updateBatch = some s') : s'.Tidy := by
  have haggregator := hknown.aggregator
  have hheld := h.held
  unfold System.updateBatch at hstep
  split at hstep
  next work assessorProofId state hupdating =>
    rw [hupdating] at haggregator hheld
    obtain ⟨hwork, hne⟩ := haggregator
    have hgrowth := growth_updating hupdating
    split at hstep
    next db hok =>
      cases hstep
      obtain ⟨hbatches, hrows, -, hsettled⟩ := Db.updateBatch_ok (g := ⟨work.batchId, state, work.pending, assessorProofId⟩) hok hwork.batch
      have hperm : db.batchedOrders.Perm (s.db.batchedOrders ++ work.pending.map AggregationOrder.orderId) := by
        rw [Db.batchedOrders, hbatches]
        exact batchedOrders_grown (g := ⟨work.batchId, state, work.pending, assessorProofId⟩) hwork.batch
      refine ⟨fun id hid => ?_, ?_, fun batch' hmem => ?_, fun o ho => ?_⟩
      · obtain hid | hid := mem_append.mp (hperm.subset hid)
        · obtain ⟨order, hget, hstatus⟩ := h.settled id hid
          have hne : order.status ≠ .skipped := by
            obtain hstatus | hstatus | hstatus := hstatus <;> rw [hstatus] <;> decide
          obtain ⟨order', hget', hfollows⟩ := hrows id order hget hne
          exact ⟨order', hget', hfollows.settled (by simp) hstatus⟩
        · obtain ⟨o, ho, rfl⟩ := mem_map.mp hid
          exact hsettled o ho
      · refine hperm.nodup_iff.mpr (nodup_append.mpr ⟨h.nodup, pending_nodup hwork, fun id hid id' hid' heq => ?_⟩)
        obtain ⟨o, ho, rfl⟩ := mem_map.mp hid'
        exact hheld o ho (heq ▸ hid)
      · rw [hbatches] at hmem
        obtain hmem | rfl := mem_or_eq_of_mem_set hmem
        · obtain ⟨orders, haccount⟩ := h.accounts batch' hmem
          exact ⟨orders, haccount.follows hrows⟩
        · obtain ⟨orders, haccount⟩ := h.accounts work.batch (mem_of_getElem? hwork.batch)
          have hnonempty : orders ++ work.pending ≠ [] := fun hnil => hne (by
            rw [Work.allOrders, ← haccount.orderIds, ← map_append, hnil, map_nil])
          have hgrown := haccount.grown (g := ⟨work.batchId, state, work.pending, assessorProofId⟩) (pending_holds hwork)
            (hcareful.feesFit _ hgrowth work.batch hwork.batch) (hcareful.expirationsFit _ hgrowth) hnonempty
          exact ⟨_, hgrown.follows hrows⟩
      · cases assessorProofId <;> cases ho
    next =>
      cases hstep
      exact ⟨h.settled, h.nodup, h.accounts, fun _ hmem => absurd hmem not_mem_nil⟩
  next => cases hstep

theorem Tidy.step (h : s.Tidy) (hknown : s.Known) (hcareful : s.Careful event) (hstep : s.step proofs event = some s') : s'.Tidy := by
  by_cases hevent : event = .updateBatch
  · subst hevent
    exact h.update hknown hcareful hstep
  · exact h.quiet hknown hcareful hstep hevent

theorem Run.tidy (hrun : Run proofs Careful s) : s.Tidy := by
  induction hrun with
  | start => exact start_tidy
  | step hrun hcareful hstep ih => exact ih.step hrun.known hcareful hstep

end System

/-- The books of a careful run. -/
theorem books_kept {proofs : Proofs} {s : System} (hrun : System.Run proofs System.Careful s) : s.db.Books :=
  hrun.tidy.books hrun.known

section Sample

/-- Every proof has a claim of its own and an empty journal. -/
def sampleProofs : Proofs := ⟨fun proofId => BitVec.ofNat 256 proofId, fun _ => []⟩

/-- A request that asks for a claim, for account 1. -/
def sampleOrder : OrderRequest where
  request := { Market.sampleRequest Market.sampleId with
    requirements := ⟨⟨0, 0⟩, ⟨.claimDigestMatch, List.replicate 32 0⟩, 0⟩ }
  clientSig := []
  fulfillmentType := .lockAndFulfill
  imageId := some (List.replicate 64 '0')
  expireTimestamp := some 10

/-- An order is accepted, and a task proves it. -/
def provingEvents : List Event :=
  [.accept 0 sampleOrder 1, .findActiveProofs [], .recoverNext, .takeProvingOrder 0, .createStarkSession 0 7]

/-- The aggregator goes round once. -/
def aggregationEvents : List Event :=
  [.currentBatch, .readBatch 0, .collectProofs [0], .collectGroth16Proofs [], .filterExpired, .filterExpired, .checkFinalize false,
    .proveSetBuilder (fun _ => true) 8 false, .updateBatch]

/-- The first of two orders is put into a batch. Then the aggregator starts again, and it finds the second one proved. -/
def secondOrderEvents : List Event :=
  provingEvents ++ .finishProof 0 :: aggregationEvents ++
    [.accept 1 { sampleOrder with imageId := none } 1, .takeProvingOrder 1, .createStarkSession 0 9, .finishProof 0, .restartAggregator,
      .currentBatch, .readBatch 0, .collectProofs [1], .collectGroth16Proofs [], .filterExpired, .filterExpired]

theorem books_kept_two_orders : ∃ s, System.Run sampleProofs System.Careful s ∧ s.db.batchedOrders = [0, 1] ∧ s.db.Books := by
  have hfollow : (System.start.follow sampleProofs System.Careful (secondOrderEvents ++
      [.checkFinalize false, .proveSetBuilder (fun _ => true) 10 false, .updateBatch])).map (fun s => s.db.batchedOrders) = some [0, 1] := by
    decide
  obtain ⟨s, hs, horders⟩ := Option.map_eq_some_iff.mp hfollow
  have hrun := System.Run.start.follow hs
  exact ⟨s, hrun, horders, books_kept hrun⟩

/-- The service is started again while the task goes on, and a second task takes up the order. The
second speaks of it when it is in the batch. -/
theorem books_lost : ¬∀ (proofs : Proofs) (s : System), System.Run proofs (fun _ _ => True) s → s.db.Books := by
  intro hall
  have hfollow : (System.start.follow sampleProofs (fun _ _ => True)
      (provingEvents ++ [.restartProving, .findActiveProofs [0], .recoverNext, .recoverNext, .finishProof 0] ++ aggregationEvents ++
        .finishProof 0 :: aggregationEvents)).map (fun s => s.db.batchedOrders) = some [0, 0] := by decide
  obtain ⟨s, hs, horders⟩ := Option.map_eq_some_iff.mp hfollow
  have hnodup := (hall sampleProofs s (System.Run.start.follow hs)).nodup
  rw [horders] at hnodup
  exact absurd hnodup (by decide)

end Sample

end VerifiableCompute.Broker
