import VerifiableCompute.Broker.Bookkeeping

/-! What the proofs of a closed batch are about. The assessor's fills are the orders of the batch, and the
set builder has seen the claim of every order that is not compressed and the claim of the assessor, as
long as no receipt is left out when another is put in. -/

namespace VerifiableCompute.Broker

open Lib List Option

variable {proofs : Proofs}

def Batch.claimDigests (batch : Batch) : List Digest := (batch.aggregationState.map AggregationState.claimDigests).getD []

theorem Order.Follows.fill {order order' : Order} {fill : Market.AssessorFill} (h : order'.Follows order) (hfill : order.fill proofs = some fill) :
    order'.fill proofs = some fill := by
  obtain ⟨proofId, hproof, hfill⟩ := bind_eq_some_iff.mp hfill
  have himage : order'.imageId = order.imageId := congrArg OrderRequest.imageId h.origin
  have hsig : order'.clientSig = order.clientSig := congrArg OrderRequest.clientSig h.origin
  refine bind_eq_some_iff.mpr ⟨proofId, h.proofId proofId hproof, ?_⟩
  rw [Order.fulfillmentData, h.request, himage, hsig]
  exact hfill

/-- A proof of the assessor about these orders, with the fills that they still have. -/
structure System.Assessed (proofs : Proofs) (s : System) (proofId : ProofId) (orders : List OrderId)
    (fills : List (OrderId × Market.AssessorFill)) : Prop where
  recorded : s.assessors.lookup proofId = some fills
  orders : fills.map Prod.fst = orders
  fills : ∀ e ∈ fills, ∃ order, s.db.orders.get? e.1 = some order ∧ order.status ≠ .skipped ∧ order.fill proofs = some e.2

/-- The proofs of a closed batch cover its orders. -/
structure Batch.Covered (proofs : Proofs) (s : System) (batch : Batch) : Prop where
  orders : ∀ id ∈ batch.orders, ∃ order, s.db.orders.get? id = some order ∧ (order.compressionType = .none →
    ∃ proofId, order.proofId = some proofId ∧ proofs.claimDigest proofId ∈ batch.claimDigests)
  assessor : ∃ proofId fills, batch.assessorProofId = some proofId ∧ proofs.claimDigest proofId ∈ batch.claimDigests ∧
    s.Assessed proofs proofId batch.orders fills

/-- The proofs that a run of the set builder asks for. -/
def Work.proofIds (work : Work) (assessorProofId : Option ProofId) : List ProofId :=
  work.newProofs.map AggregationOrder.proofId ++ assessorProofId.toList

/-- The set builder gets all the receipts that it asks for, or none. -/
def System.Unfiltered (s : System) : Event → Prop
  | .proveSetBuilder valid _ _ =>
    match s.aggregator with
    | .building work assessorProofId =>
      (∀ proofId ∈ work.proofIds assessorProofId, valid proofId = true) ∨ ∀ proofId ∈ work.proofIds assessorProofId, valid proofId = false
    | _ => True
  | _ => True

instance (s : System) (event : Event) : Decidable (s.Unfiltered event) := by
  unfold System.Unfiltered
  split
  · split <;> infer_instance
  · infer_instance

/-- What the aggregator has proven on the way to an update; of claims it is said in strict runs only. -/
def Aggregator.Covering (proofs : Proofs) (strict : Prop) (s : System) : Aggregator → Prop
  | .building work assessorProofId => ∀ proofId, assessorProofId = some proofId → ∃ fills, s.Assessed proofs proofId work.allOrders fills
  | .updating work assessorProofId state =>
    (∀ digest ∈ work.batch.claimDigests, digest ∈ state.claimDigests) ∧
      (strict → ∀ o ∈ work.newProofs, proofs.claimDigest o.proofId ∈ state.claimDigests) ∧
        ∀ proofId, assessorProofId = some proofId → (strict → proofs.claimDigest proofId ∈ state.claimDigests) ∧
          ∃ fills, s.Assessed proofs proofId work.allOrders fills
  | _ => True

namespace System

variable {strict : Prop} {s s' : System} {event : Event}

/-- An order of a batch, with the claim of its proof if it is not compressed. -/
structure ClaimSeen (proofs : Proofs) (strict : Prop) (db : Db) (digests : List Digest) (id : OrderId) (order : Order) (proofId : ProofId) : Prop where
  row : db.orders.get? id = some order
  accepted : order.status ≠ .skipped
  proven : order.proofId = some proofId
  seen : strict → order.compressionType = .none → proofs.claimDigest proofId ∈ digests

variable {proofId : ProofId} {touched : Touched} {fills : List (OrderId × Market.AssessorFill)} {batch : Batch} {g : Growth}

theorem ClaimSeen.follows {db db' : Db} {digests : List Digest} {id : OrderId} {order : Order}
    (h : ClaimSeen proofs strict db digests id order proofId) (hrows : db'.RowsFollow touched db) :
    ∃ order', ClaimSeen proofs strict db' digests id order' proofId := by
  obtain ⟨order', hget, hfollows⟩ := hrows id order h.row h.accepted
  exact ⟨order', hget, hfollows.accepted h.accepted, hfollows.proofId _ h.proven, fun hstrict htype => h.seen hstrict (hfollows.compressionType.symm.trans htype)⟩

theorem Assessed.follows {orders : List OrderId}
    (h : s.Assessed proofs proofId orders fills) (hrows : s'.db.RowsFollow touched s.db)
    (hassessors : s'.assessors.lookup proofId = some fills) : s'.Assessed proofs proofId orders fills where
  recorded := hassessors
  orders := h.orders
  fills e he := by
    obtain ⟨order, hget, hne, hfill⟩ := h.fills e he
    obtain ⟨order', hget', hfollows⟩ := hrows e.1 order hget hne
    exact ⟨order', hget', hfollows.accepted hne, hfollows.fill hfill⟩

structure Covering (proofs : Proofs) (strict : Prop) (s : System) : Prop where
  claims : ∀ batch ∈ s.db.batches, ∀ id ∈ batch.orders, ∃ order proofId, ClaimSeen proofs strict s.db batch.claimDigests id order proofId
  assessors : ∀ batch ∈ s.db.batches, batch.status ≠ .aggregating → ∃ proofId fills, batch.assessorProofId = some proofId ∧
    (strict → proofs.claimDigest proofId ∈ batch.claimDigests) ∧ s.Assessed proofs proofId batch.orders fills
  aggregator : s.aggregator.Covering proofs strict s

theorem Covering.covered (h : s.Covering proofs True) (hbatch : batch ∈ s.db.batches) (hclosed : batch.status ≠ .aggregating) :
    batch.Covered proofs s where
  orders id hid := by
    obtain ⟨order, proofId, hseen⟩ := h.claims batch hbatch id hid
    exact ⟨order, hseen.row, fun htype => ⟨proofId, hseen.proven, hseen.seen trivial htype⟩⟩
  assessor := by
    obtain ⟨proofId, fills, hproof, hdigest, hassessed⟩ := h.assessors batch hbatch hclosed
    exact ⟨proofId, fills, hproof, hdigest trivial, hassessed⟩

theorem start_covering : start.Covering proofs strict :=
  ⟨fun _ hmem => absurd hmem not_mem_nil, fun _ hmem => absurd hmem not_mem_nil, trivial⟩

theorem growth_some (h : s.growth event = some g) : ∃ work assessorProofId state, s.aggregator = .updating work assessorProofId state ∧
    g = ⟨work.batchId, state, work.pending, assessorProofId⟩ := by
  unfold growth at h
  split at h
  · split at h
    next work assessorProofId state hupdating => exact ⟨work, assessorProofId, state, hupdating, (Option.some.inj h).symm⟩
    next => cases h
  · cases h

theorem lookup_append {α β : Type} [BEq α] {l : List (α × β)} {a : α} {b : β} (h : l.lookup a = some b) (l' : List (α × β)) :
    (l ++ l').lookup a = some b := by
  rw [List.lookup_append, h, some_or]

/-- What a step leaves of the assessor's proofs. -/
def Keeps (s s' : System) : Prop := ∀ proofId fills, s.assessors.lookup proofId = some fills → s'.assessors.lookup proofId = some fills

theorem Covering.follows_aggregator (h : s.Covering proofs strict) (hrows : s'.db.RowsFollow touched s.db) (hkeeps : s.Keeps s') :
    s.aggregator.Covering proofs strict s' := by
  have haggregator := h.aggregator
  cases haggregator' : s.aggregator with
  | building work assessorProofId =>
    rw [haggregator'] at haggregator
    intro proofId hid
    obtain ⟨fills, hassessed⟩ := haggregator proofId hid
    exact ⟨fills, hassessed.follows hrows (hkeeps _ _ hassessed.recorded)⟩
  | updating work assessorProofId state =>
    rw [haggregator'] at haggregator
    refine ⟨haggregator.1, haggregator.2.1, fun proofId hid => ?_⟩
    obtain ⟨hdigest, fills, hassessed⟩ := haggregator.2.2 proofId hid
    exact ⟨hdigest, fills, hassessed.follows hrows (hkeeps _ _ hassessed.recorded)⟩
  | _ => trivial

section

variable (h : s.Covering proofs strict) (hknown : s.Known)

include h hknown

theorem Covering.assessed {work : Work} (hassessing : s.aggregator = .assessing work)
    (hfresh : proofId ∉ s.assessors.map Prod.fst)
    (hfills : work.allOrders.mapM (s.db.fill proofs) = some fills) {aggregator : Aggregator} :
    { s with aggregator, assessors := s.assessors ++ [(proofId, fills)] }.Assessed proofs proofId work.allOrders fills := by
  have hwork := hknown.aggregator
  rw [hassessing] at hwork
  have hmapM (ids : List OrderId) (fills : List (OrderId × Market.AssessorFill)) (hfills : ids.mapM (s.db.fill proofs) = some fills) :
      fills.map Prod.fst = ids ∧ ∀ e ∈ fills, s.db.fill proofs e.1 = some e := by
    induction ids generalizing fills with
    | nil =>
      cases hfills
      exact ⟨rfl, nofun⟩
    | cons id ids ih =>
      rw [mapM_cons] at hfills
      obtain ⟨e, he, hfills⟩ := bind_eq_some_iff.mp hfills
      obtain ⟨rest, hrest, hfills⟩ := bind_eq_some_iff.mp hfills
      cases hfills
      obtain ⟨hids, hall⟩ := ih rest hrest
      obtain ⟨fill, -, rfl⟩ := map_eq_some_iff.mp he
      refine ⟨by rw [map_cons, hids], fun x hx => ?_⟩
      obtain rfl | hx := mem_cons.mp hx
      · exact he
      · exact hall x hx
  obtain ⟨hids, hall⟩ := hmapM _ fills hfills
  have hnone : s.assessors.lookup proofId = none := lookup_eq_none_iff.mpr fun e he => by
    simpa using fun heq => hfresh (List.mem_map.mpr ⟨e, he, heq.symm⟩)
  refine ⟨?_, hids, fun e he => ?_⟩
  · rw [List.lookup_append, hnone, none_or, lookup_cons, beq_self_eq_true]
  · obtain ⟨fill, hfill, heq⟩ := map_eq_some_iff.mp (hall e he)
    obtain ⟨order, hget, hfill⟩ := bind_eq_some_iff.mp hfill
    refine ⟨order, hget, ?_, by rw [hfill, ← heq]⟩
    -- The orders of the batch and those that are added were accepted.
    have hid : e.1 ∈ work.allOrders := hids ▸ List.mem_map_of_mem he
    obtain hid | hid := mem_append.mp hid
    · obtain ⟨row, _, hseen⟩ := h.claims _ (mem_of_getElem? hwork.1.batch) e.1 hid
      obtain rfl := Option.some.inj (hget.symm.trans hseen.row)
      exact hseen.accepted
    · obtain ⟨o, ho, hoid⟩ := List.mem_map.mp hid
      obtain ⟨row, hholds⟩ := pending_holds hwork.1 o ho
      obtain rfl := Option.some.inj (hget.symm.trans (hoid ▸ hholds.row))
      exact hholds.accepted

theorem Covering.aggregate (hunfiltered : strict → s.Unfiltered event)
    (hstep : s.step proofs event = some s') : s.Keeps s' ∧ s'.aggregator.Covering proofs strict s' := by
  obtain ⟨he, -⟩ := hknown.event hstep
  have haggregator := h.aggregator
  have hsame : s.Keeps s := fun _ _ h => h
  cases hevent : event.ofAggregator with
  | false =>
    obtain ⟨heq, hassessors⟩ := aggregator_eq hevent hstep
    have hkeeps : s.Keeps s' := fun _ _ hlookup => hassessors ▸ hlookup
    rw [heq]
    exact ⟨hkeeps, h.follows_aggregator he.rows hkeeps⟩
  | true =>
    cases event with
    | proveAssessor proofId =>
      simp only [step, System.proveAssessor, restartAggregator] at hstep
      split at hstep
      next work hassessing =>
        split_ifs at hstep with hfresh
        split at hstep
        next =>
          cases hstep
          exact ⟨hsame, trivial⟩
        next fills hfills =>
          cases hstep
          refine ⟨fun _ _ h => lookup_append h _, fun p hp => ?_⟩
          cases hp
          exact ⟨fills, h.assessed hknown hassessing hfresh hfills⟩
      next => cases hstep
    | proveSetBuilder valid proofId isInitial =>
      simp only [step, System.proveSetBuilder, restartAggregator] at hstep
      split at hstep
      next work assessorProofId hbuilding =>
        rw [hbuilding] at haggregator
        rw [Unfiltered, hbuilding] at hunfiltered
        split_ifs at hstep with hvalid
        · cases hstep
          exact ⟨hsame, trivial⟩
        · cases hstep
          -- Some receipt verifies, so that all do.
          have hfilter (hstrict : strict) :
              (work.newProofs.map AggregationOrder.proofId ++ assessorProofId.toList).filter valid = work.proofIds assessorProofId :=
            filter_eq_self.mpr ((hunfiltered hstrict).resolve_right fun hnone => hvalid (filter_eq_nil_iff.mpr fun p hp => by
              rw [hnone p hp]
              decide))
          refine ⟨hsame, fun digest hdigest => mem_append_left _ hdigest, fun hstrict o ho => ?_, fun p hp => ⟨fun hstrict => ?_, ?_⟩⟩
          · rw [hfilter hstrict]
            exact mem_append_right _ (List.mem_map_of_mem (mem_append_left _ (List.mem_map_of_mem ho)))
          · subst hp
            rw [hfilter hstrict]
            exact mem_append_right _ (List.mem_map_of_mem (mem_append_right _ (mem_singleton.mpr rfl)))
          · obtain ⟨fills, hassessed⟩ := haggregator p hp
            exact ⟨fills, hassessed.recorded, hassessed.orders, hassessed.fills⟩
      next => cases hstep
    | checkFinalize finalize =>
      simp only [step, System.checkFinalize, restartAggregator] at hstep
      split at hstep
      next work hchecking =>
        split_ifs at hstep <;> obtain rfl := Option.some.inj hstep
        · exact ⟨hsame, trivial⟩
        · exact ⟨hsame, trivial⟩
        · exact ⟨hsame, fun _ hnone => by cases hnone⟩
      next => cases hstep
    | updateBatch =>
      simp only [step, System.updateBatch, restartAggregator] at hstep
      split at hstep
      next work assessorProofId state hupdating =>
        split at hstep <;> obtain rfl := Option.some.inj hstep
        · cases assessorProofId <;> exact ⟨hsame, trivial⟩
        · exact ⟨hsame, trivial⟩
      next => cases hstep
    | currentBatch =>
      simp only [step, System.currentBatch] at hstep
      split at hstep
      next hidle =>
        split at hstep <;> obtain rfl := Option.some.inj hstep
        · exact ⟨hsame, trivial⟩
        · exact ⟨hsame, haggregator⟩
      next => cases hstep
    | restartAggregator | readBatch | collectProofs | collectGroth16Proofs | filterExpired | completeBatch | failCompression =>
      simp only [step, System.readBatch, System.collectProofs, System.collectGroth16Proofs, System.filterExpired, System.completeBatch,
        System.failCompression, restartAggregator] at hstep
      repeat' split at hstep
      all_goals cases hstep <;> exact ⟨hsame, trivial⟩
    | _ => cases hevent

theorem Covering.grown (hrows : s'.db.RowsFollow touched s.db) (hkeeps : s.Keeps s')
    (hg : s.growth event = some g) (hget : s.db.batches[g.batchId]? = some batch) (hstatus : batch.status = .aggregating) :
    (∀ id ∈ (batch.grown g).orders, ∃ order proofId, ClaimSeen proofs strict s'.db (batch.grown g).claimDigests id order proofId) ∧
      ((batch.grown g).status ≠ .aggregating → ∃ proofId fills, (batch.grown g).assessorProofId = some proofId ∧
        (strict → proofs.claimDigest proofId ∈ (batch.grown g).claimDigests) ∧ s'.Assessed proofs proofId (batch.grown g).orders fills) := by
  obtain ⟨work, assessorProofId, state, hupdating, rfl⟩ := growth_some hg
  have hwork := hknown.aggregator
  have hcovering := h.aggregator
  rw [hupdating] at hwork hcovering
  obtain ⟨hwork, -⟩ := hwork
  obtain ⟨hold, hnew, hassessor⟩ := hcovering
  obtain rfl := Option.some.inj (hwork.batch.symm.trans hget)
  refine ⟨fun id hid => ?_, fun hclosed => ?_⟩
  · obtain hid | hid := mem_append.mp hid
    · obtain ⟨order, proofId, hseen⟩ := h.claims _ (mem_of_getElem? hget) id hid
      obtain ⟨order', hseen'⟩ := hseen.follows hrows
      exact ⟨order', proofId, hseen'.row, hseen'.accepted, hseen'.proven, fun hstrict htype => hold _ (hseen'.seen hstrict htype)⟩
    · obtain ⟨o, ho, rfl⟩ := List.mem_map.mp hid
      have hseen : ∃ order, ClaimSeen proofs strict s.db state.claimDigests o.orderId order o.proofId := by
        obtain ho | ho := mem_append.mp ho
        · obtain ⟨order, hholds, -⟩ := hwork.newProofs o ho
          exact ⟨order, hholds.row, hholds.accepted, hholds.proofId, fun hstrict _ => hnew hstrict o ho⟩
        · obtain ⟨order, hholds, htype⟩ := hwork.newGroth16Proofs o ho
          exact ⟨order, hholds.row, hholds.accepted, hholds.proofId, fun _ hplain => absurd hplain htype⟩
      obtain ⟨order, hseen⟩ := hseen
      obtain ⟨order', hseen'⟩ := hseen.follows hrows
      exact ⟨order', o.proofId, hseen'⟩
  · cases assessorProofId with
    | none => exact absurd hstatus hclosed
    | some proofId =>
      obtain ⟨hdigest, fills, hassessed⟩ := hassessor proofId rfl
      exact ⟨proofId, fills, rfl, hdigest, hassessed.follows hrows (hkeeps _ _ hassessed.recorded)⟩

theorem Covering.step (hunfiltered : strict → s.Unfiltered event)
    (hstep : s.step proofs event = some s') : s'.Covering proofs strict := by
  obtain ⟨he, -⟩ := hknown.event hstep
  obtain ⟨hkeeps, haggregator⟩ := h.aggregate hknown hunfiltered hstep
  have hbatch (batch' : Batch) (hmem : batch' ∈ s'.db.batches) :
      (∀ id ∈ batch'.orders, ∃ order proofId, ClaimSeen proofs strict s'.db batch'.claimDigests id order proofId) ∧
        (batch'.status ≠ .aggregating → ∃ proofId fills, batch'.assessorProofId = some proofId ∧
          (strict → proofs.claimDigest proofId ∈ batch'.claimDigests) ∧ s'.Assessed proofs proofId batch'.orders fills) := by
    obtain ⟨id, hid⟩ := getElem?_of_mem hmem
    obtain hget | ⟨rfl, -, -⟩ | ⟨batch, hget, hcontent, -, hclosed, -⟩ | ⟨g, batch, hg, rfl, hget, hstatus, rfl⟩ := he.batches.cases_of_mem hid
    · have hold := mem_of_getElem? hget
      refine ⟨fun id hid => ?_, fun hclosed => ?_⟩
      · obtain ⟨order, proofId, hseen⟩ := h.claims batch' hold id hid
        obtain ⟨order', hseen'⟩ := hseen.follows he.rows
        exact ⟨order', proofId, hseen'⟩
      · obtain ⟨proofId, fills, hproof, hdigest, hassessed⟩ := h.assessors batch' hold hclosed
        exact ⟨proofId, fills, hproof, hdigest, hassessed.follows he.rows (hkeeps _ _ hassessed.recorded)⟩
    · exact ⟨nofun, fun hne => absurd rfl hne⟩
    · have hold := mem_of_getElem? hget
      have hdigests : batch'.claimDigests = batch.claimDigests := by rw [Batch.claimDigests, hcontent.claimDigests, Batch.claimDigests]
      refine ⟨fun id hid => ?_, fun _ => ?_⟩
      · rw [hcontent.orders] at hid
        obtain ⟨order, proofId, hseen⟩ := h.claims batch hold id hid
        obtain ⟨order', hseen'⟩ := hseen.follows he.rows
        exact ⟨order', proofId, hdigests ▸ hseen'⟩
      · rw [hcontent.assessorProofId, hcontent.orders, hdigests]
        obtain ⟨proofId, fills, hproof, hdigest, hassessed⟩ := h.assessors batch hold hclosed
        exact ⟨proofId, fills, hproof, hdigest, hassessed.follows he.rows (hkeeps _ _ hassessed.recorded)⟩
    · exact h.grown hknown he.rows hkeeps hg hget hstatus
  exact ⟨fun batch hmem => (hbatch batch hmem).1, fun batch hmem => (hbatch batch hmem).2, haggregator⟩

end

theorem Run.covering {allowed : System → Event → Prop} (hallowed : ∀ s event, allowed s event → strict → s.Unfiltered event)
    (hrun : Run proofs allowed s) : s.Covering proofs strict := by
  induction hrun with
  | start => exact start_covering
  | step hrun hevent hstep ih => exact ih.step hrun.known (hallowed _ _ hevent) hstep

end System

/-- Every closed batch is covered, in a run whose set builder gets what it asks for. -/
theorem closed_batches_covered (s : System) (hrun : System.Run proofs System.Unfiltered s) :
    ∀ batch ∈ s.db.batches, batch.status ≠ .aggregating → batch.Covered proofs s :=
  fun _ hmem hclosed => (hrun.covering fun _ _ h _ => h).covered hmem hclosed

section Sample

/-- The aggregator closes the batch of one order, with the receipts that are valid. -/
def closingEvents (valid : ProofId → Bool) : List Event :=
  provingEvents ++ [.finishProof 0, .currentBatch, .readBatch 0, .collectProofs [0], .collectGroth16Proofs [], .filterExpired, .filterExpired,
    .checkFinalize true, .proveAssessor 9, .proveSetBuilder valid 8 false, .updateBatch]

/-- What is asked about a batch. -/
def Batch.summary (batch : Batch) : BatchStatus × List OrderId × List Digest := (batch.status, batch.orders, batch.claimDigests)

theorem closed_batches_covered_two_orders : ∃ s, System.Run sampleProofs System.Unfiltered s ∧
    s.db.batches.map Batch.summary = [(.pendingCompression, [0, 1], [7, 9, 11])] ∧
      ∀ batch ∈ s.db.batches, batch.status ≠ .aggregating → batch.Covered sampleProofs s := by
  have hfollow : (System.start.follow sampleProofs System.Unfiltered (secondOrderEvents ++
      [.checkFinalize true, .proveAssessor 11, .proveSetBuilder (fun _ => true) 10 false, .updateBatch])).map
        (fun s => s.db.batches.map Batch.summary) = some [(.pendingCompression, [0, 1], [7, 9, 11])] := by decide
  obtain ⟨s, hs, hbatches⟩ := Option.map_eq_some_iff.mp hfollow
  have hrun := System.Run.start.follow hs
  exact ⟨s, hrun, hbatches, closed_batches_covered s hrun⟩

/-- The receipt of the order is left out, and the order is in the batch all the same. -/
theorem claim_left_out : ¬∀ (proofs : Proofs) (s : System), System.Run proofs (fun _ _ => True) s →
    ∀ batch ∈ s.db.batches, batch.status ≠ .aggregating → batch.Covered proofs s := by
  intro hall
  have hfollow : (System.start.follow sampleProofs (fun _ _ => True) (closingEvents fun proofId => proofId ≠ 7)).map
      (fun s => (s.db.batches.map Batch.summary, (s.db.orders.get? 0).all fun order => order.compressionType = .none ∧ order.proofId = some 7)) =
        some ([(.pendingCompression, [0], [9])], true) := by decide
  obtain ⟨s, hs, hsummary⟩ := Option.map_eq_some_iff.mp hfollow
  obtain ⟨hbatches, horder⟩ := Prod.mk.inj hsummary
  obtain ⟨batch, hbatch⟩ : ∃ batch, s.db.batches = [batch] := List.length_eq_one_iff.mp (by simpa using congrArg List.length hbatches)
  rw [hbatch, List.map_singleton, List.singleton_inj] at hbatches
  obtain ⟨hstatus, hbatches⟩ := Prod.mk.inj hbatches
  obtain ⟨horders, hdigests⟩ := Prod.mk.inj hbatches
  have hcovered := hall sampleProofs s (System.Run.start.follow hs) batch (hbatch ▸ List.mem_cons_self) (by rw [hstatus]; decide)
  obtain ⟨order, hget, hseen⟩ := hcovered.orders 0 (by rw [horders]; exact List.mem_cons_self)
  rw [hget] at horder
  obtain ⟨htype, hproof⟩ := of_decide_eq_true horder
  obtain ⟨proofId, hproof', hmem⟩ := hseen htype
  obtain rfl := Option.some.inj (hproof.symm.trans hproof')
  rw [hdigests] at hmem
  exact absurd hmem (by decide)

end Sample

end VerifiableCompute.Broker
