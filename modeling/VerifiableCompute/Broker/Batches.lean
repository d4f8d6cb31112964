import VerifiableCompute.Broker.Rows

/-! What the calls of the database do to batches. A batch is opened when none is worked on, grows by whole
updates while it is worked on, and afterwards only changes its status. -/

namespace VerifiableCompute.Broker

open Lib List

/-- Batches with the same content, but for their status and the compressed proof. -/
structure Batch.SameContent (batch' batch : Batch) : Prop where
  orders : batch'.orders = batch.orders
  assessorProofId : batch'.assessorProofId = batch.assessorProofId
  claimDigests : batch'.aggregationState.map AggregationState.claimDigests = batch.aggregationState.map AggregationState.claimDigests
  deadline : batch'.deadline = batch.deadline
  fees : batch'.fees = batch.fees

theorem Batch.SameContent.refl (batch : Batch) : batch.SameContent batch := ⟨rfl, rfl, rfl, rfl, rfl⟩

theorem Batch.SameContent.symm {batch batch' : Batch} (h : batch'.SameContent batch) : batch.SameContent batch' :=
  ⟨h.orders.symm, h.assessorProofId.symm, h.claimDigests.symm, h.deadline.symm, h.fees.symm⟩

theorem Batch.SameContent.trans {a b c : Batch} (hab : a.SameContent b) (hbc : b.SameContent c) : a.SameContent c :=
  ⟨hab.orders.trans hbc.orders, hab.assessorProofId.trans hbc.assessorProofId, hab.claimDigests.trans hbc.claimDigests,
    hab.deadline.trans hbc.deadline, hab.fees.trans hbc.fees⟩

/-- What an update says. -/
structure Growth where
  batchId : BatchId
  state : AggregationState
  orders : List AggregationOrder
  assessorProofId : Option ProofId

/-- The batch after an update. -/
def Batch.grown (batch : Batch) (g : Growth) : Batch :=
  { batch with
    status := if g.assessorProofId.isSome then .pendingCompression else batch.status
    orders := batch.orders ++ g.orders.map AggregationOrder.orderId
    assessorProofId := g.assessorProofId.or batch.assessorProofId
    aggregationState := some g.state
    deadline := some (Db.newDeadline batch.deadline g.orders)
    fees := g.orders.foldl (fun sum order => sum + order.fee) batch.fees }

namespace Db

variable {db db' : Db} {id : BatchId} {batch : Batch} {f : Batch → Batch}

theorem updateBatchRow_ok (h : db.updateBatchRow id f = .ok db') :
    ∃ batch, db.batches[id]? = some batch ∧ db' = { db with batches := db.batches.set id (f batch) } := by
  unfold updateBatchRow at h
  split at h
  · cases h
  next batch hget => exact ⟨batch, hget, (Except.ok.inj h).symm⟩

theorem getBatch_ok (h : db.getBatch id = .ok batch) : db.batches[id]? = some batch := by
  unfold getBatch at h
  split at h
  · cases h
  next batch' hget =>
    obtain ⟨_, _, h⟩ := bind_ok_iff.mp h
    exact hget.trans (congrArg some (Except.ok.inj h))

theorem getElem?_set_self {l : List Batch} (hget : l[id]? = some batch) (batch' : Batch) : (l.set id batch')[id]? = some batch' := by
  obtain ⟨hlt, -⟩ := List.getElem?_eq_some_iff.mp hget
  exact List.getElem?_set_self hlt

theorem addOrder_ok {o : AggregationOrder} (h : addOrder id db o = .ok db') (hget : db.batches[id]? = some batch) :
    db'.batches = db.batches.set id { batch with orders := batch.orders ++ [o.orderId] } ∧ db'.RowsFollow .nothing db ∧
      (db.Fits → db'.Fits) ∧ ∃ order, db'.orders.get? o.orderId = some order ∧ order.status = .pendingSubmission := by
  obtain ⟨mid, hrow, horder⟩ := bind_ok_iff.mp h
  obtain ⟨batch', hget', rfl⟩ := updateBatchRow_ok hrow
  obtain rfl : batch = batch' := Option.some.inj (hget.symm.trans hget')
  have hwrites := writes_settle .nothing (.inl rfl) (fun order => ⟨order.errorMsg, rfl⟩) horder
  obtain ⟨order, horder, rfl⟩ := updateOrder_ok horder
  exact ⟨rfl, hwrites.rows, hwrites.fits, _, by rw [OrderedMap.get?_insert, if_pos rfl], rfl⟩

theorem addOrders_ok {orders : List AggregationOrder} (h : orders.foldlM (addOrder id) db = .ok db') (hget : db.batches[id]? = some batch) :
    db'.batches = db.batches.set id { batch with orders := batch.orders ++ orders.map AggregationOrder.orderId } ∧
      db'.RowsFollow .nothing db ∧ (db.Fits → db'.Fits) ∧
        ∀ o ∈ orders, ∃ order, db'.orders.get? o.orderId = some order ∧ order.status.Settled := by
  induction orders generalizing db batch with
  | nil =>
    obtain rfl := Except.ok.inj h
    have hsame : { batch with orders := batch.orders ++ ([] : List AggregationOrder).map AggregationOrder.orderId } = batch := by
      rw [map_nil, append_nil]
    rw [hsame]
    obtain ⟨hlt, hget⟩ := List.getElem?_eq_some_iff.mp hget
    rw [← hget, set_getElem_self]
    exact ⟨rfl, .refl .nothing db, fun h => h, by simp⟩
  | cons o orders ih =>
    rw [foldlM_cons] at h
    obtain ⟨mid, hone, hrest⟩ := bind_ok_iff.mp h
    obtain ⟨hbatches, hrows, hfits, order, horder, hstatus⟩ := addOrder_ok hone hget
    have hgetmid : mid.batches[id]? = some { batch with orders := batch.orders ++ [o.orderId] } := by
      rw [hbatches]
      exact getElem?_set_self hget _
    obtain ⟨hbatches', hrows', hfits', hsettled⟩ := ih hrest hgetmid
    refine ⟨?_, hrows'.trans hrows, fun h => hfits' (hfits h), fun x hx => ?_⟩
    · rw [hbatches', hbatches, set_set, map_cons, append_assoc, singleton_append]
    · obtain rfl | hx := mem_cons.mp hx
      · obtain ⟨order', hget', hfollows⟩ := hrows' _ order horder (by rw [hstatus]; decide)
        exact ⟨order', hget', hfollows.settled nofun (.inl hstatus)⟩
      · exact hsettled x hx

theorem updateBatch_ok {g : Growth}
    (h : db.updateBatch g.batchId g.state g.orders g.assessorProofId = .ok db') (hget : db.batches[g.batchId]? = some batch) :
    db'.batches = db.batches.set g.batchId (batch.grown g) ∧ db'.RowsFollow .nothing db ∧ (db.Fits → db'.Fits) ∧
      ∀ o ∈ g.orders, ∃ order, db'.orders.get? o.orderId = some order ∧ order.status.Settled := by
  obtain ⟨first, hfirst, h⟩ := bind_ok_iff.mp h
  obtain ⟨batch', hget', rfl⟩ := updateBatchRow_ok hfirst
  obtain rfl : batch = batch' := Option.some.inj (hget.symm.trans hget')
  obtain ⟨added, hadded, h⟩ := bind_ok_iff.mp h
  obtain ⟨hbatches, hrows, hfits, hsettled⟩ := addOrders_ok hadded (getElem?_set_self hget _)
  rw [set_set] at hbatches
  obtain ⟨id, state, orders, assessorProofId⟩ := g
  cases assessorProofId with
  | none =>
    cases h
    exact ⟨hbatches, hrows, hfits, hsettled⟩
  | some proofId =>
    obtain ⟨batch'', hget'', rfl⟩ := updateBatchRow_ok h
    rw [hbatches, getElem?_set_self hget] at hget''
    cases hget''
    refine ⟨?_, hrows, hfits, hsettled⟩
    rw [hbatches, set_set]
    rfl

/-- What a step may do to the batches, with the update if there is one. -/
inductive BatchStep (growth : Option Growth) (db db' : Db) : Prop
  | same (h : db'.batches = db.batches)
  | opened (h : db'.batches = db.batches ++ [.default]) (hnone : ∀ batch ∈ db.batches, ¬active batch)
  /-- A batch that is no longer filled goes on. -/
  | moved (id : BatchId) (batch batch' : Batch) (hget : db.batches[id]? = some batch) (h : db'.batches = db.batches.set id batch')
      (hcontent : batch'.SameContent batch) (hstate : batch'.aggregationState.isSome = batch.aggregationState.isSome)
      (hold : batch.status ≠ .aggregating) (hnew : ¬active batch')
  | grown (g : Growth) (batch : Batch) (hgrowth : growth = some g) (hget : db.batches[g.batchId]? = some batch)
      (hstatus : batch.status = .aggregating) (h : db'.batches = db.batches.set g.batchId (batch.grown g))

variable {growth : Option Growth}

/-- No batch is worked on twice, and none that is closed is worked on again. -/
def OneActive (db : Db) : Prop :=
  ∀ (i j : ℕ) (a b : Batch), db.batches[i]? = some a → db.batches[j]? = some b → active a → active b → i = j

theorem not_active_iff {batch : Batch} : ¬active batch ↔ batch.status ≠ .aggregating ∧ batch.status ≠ .pendingCompression := by
  simp [active]

theorem BatchStep.follows (hstep : db.BatchStep growth db') (hget : db.batches[id]? = some batch) :
    ∃ batch', db'.batches[id]? = some batch' ∧ (batch.status ≠ .aggregating → batch'.status ≠ .aggregating) ∧
      (¬active batch → ¬active batch') ∧ (batch.status ≠ .aggregating → batch'.SameContent batch) := by
  cases hstep with
  | same h => exact ⟨batch, h ▸ hget, fun h => h, fun h => h, fun _ => .refl batch⟩
  | opened h =>
    refine ⟨batch, ?_, fun h => h, fun h => h, fun _ => .refl batch⟩
    rw [h, getElem?_append_left (List.getElem?_eq_some_iff.mp hget).1]
    exact hget
  | moved id' old new hold h hcontent hstate haggregating hnew =>
    by_cases hid : id = id'
    · subst hid
      obtain rfl : batch = old := Option.some.inj (hget.symm.trans hold)
      exact ⟨new, by rw [h]; exact getElem?_set_self hold new, fun _ => (not_active_iff.mp hnew).1, fun _ => hnew, fun _ => hcontent⟩
    · exact ⟨batch, by rw [h, getElem?_set_ne (Ne.symm hid)]; exact hget, fun h => h, fun h => h, fun _ => .refl batch⟩
  | grown g old hgrowth hold hstatus h =>
    by_cases hid : id = g.batchId
    · subst hid
      obtain rfl : batch = old := Option.some.inj (hget.symm.trans hold)
      exact ⟨_, by rw [h]; exact getElem?_set_self hget _, fun hne => absurd hstatus hne, fun hne => absurd hstatus (not_active_iff.mp hne).1,
        fun hne => absurd hstatus hne⟩
    · exact ⟨batch, by rw [h, getElem?_set_ne (Ne.symm hid)]; exact hget, fun h => h, fun h => h, fun _ => .refl batch⟩

section

variable (hstep : db.BatchStep growth db') {batch' : Batch} (hget : db'.batches[id]? = some batch')

include hstep batch' hget

theorem BatchStep.cases_of_mem :
    db.batches[id]? = some batch' ∨ (batch' = .default ∧ id = db.batches.length ∧ ∀ batch ∈ db.batches, ¬active batch) ∨
      (∃ batch, db.batches[id]? = some batch ∧ batch'.SameContent batch ∧
        batch'.aggregationState.isSome = batch.aggregationState.isSome ∧ batch.status ≠ .aggregating ∧ ¬active batch') ∨
      ∃ g batch, growth = some g ∧ id = g.batchId ∧ db.batches[id]? = some batch ∧ batch.status = .aggregating ∧
        batch' = batch.grown g := by
  cases hstep with
  | same h => exact .inl (h ▸ hget)
  | opened h hnone =>
    rw [h] at hget
    by_cases hlt : id < db.batches.length
    · rw [getElem?_append_left hlt] at hget
      exact .inl hget
    · rw [getElem?_append_right (not_lt.mp hlt)] at hget
      obtain ⟨hzero, heq⟩ := List.getElem?_eq_some_iff.mp hget
      have hle : id ≤ db.batches.length := Nat.sub_eq_zero_iff_le.mp (Nat.lt_one_iff.mp hzero)
      refine .inr (.inl ⟨?_, le_antisymm hle (not_lt.mp hlt), hnone⟩)
      rw [← heq, getElem_singleton]
  | moved id' old new hold h hcontent hstate haggregating hnew =>
    by_cases hid : id = id'
    · subst hid
      rw [h, getElem?_set_self hold] at hget
      cases hget
      exact .inr (.inr (.inl ⟨old, hold, hcontent, hstate, haggregating, hnew⟩))
    · rw [h, getElem?_set_ne (Ne.symm hid)] at hget
      exact .inl hget
  | grown g old hgrowth hold hstatus h =>
    by_cases hid : id = g.batchId
    · subst hid
      rw [h, getElem?_set_self hold] at hget
      exact .inr (.inr (.inr ⟨g, old, hgrowth, rfl, hold, hstatus, (Option.some.inj hget).symm⟩))
    · rw [h, getElem?_set_ne (Ne.symm hid)] at hget
      exact .inl hget

theorem BatchStep.active_before (hactive : active batch') :
    (∃ batch, db.batches[id]? = some batch ∧ active batch) ∨ id = db.batches.length ∧ ∀ batch ∈ db.batches, ¬active batch := by
  obtain h | ⟨-, hid, hnone⟩ | ⟨_, _, _, _, _, hnew⟩ | ⟨g, batch, -, -, h, hstatus, -⟩ := hstep.cases_of_mem hget
  · exact .inl ⟨batch', h, hactive⟩
  · exact .inr ⟨hid, hnone⟩
  · exact absurd hactive hnew
  · exact .inl ⟨batch, h, by simp [active, hstatus]⟩

end

theorem OneActive.step (h : db.OneActive) (hstep : db.BatchStep growth db') : db'.OneActive := by
  intro i j a b hi hj ha hb
  obtain ⟨a', hi', ha'⟩ | ⟨hi', hnone⟩ := hstep.active_before hi ha
  · obtain ⟨b', hj', hb'⟩ | ⟨-, hnone⟩ := hstep.active_before hj hb
    · exact h i j a' b' hi' hj' ha' hb'
    · exact absurd ha' (hnone a' (mem_of_getElem? hi'))
  · obtain ⟨b', hj', hb'⟩ | ⟨hj', -⟩ := hstep.active_before hj hb
    · exact absurd hb' (hnone b' (mem_of_getElem? hj'))
    · rw [hi', hj']

end Db

end VerifiableCompute.Broker
