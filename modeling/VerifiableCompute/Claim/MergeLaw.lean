import VerifiableCompute.Claim.Prunings

/-! Every claim type merges lawfully: the merge of two prunings of one claim is their
union, and a merge that succeeds is digest equal to what was merged. -/

namespace VerifiableCompute.Claim

open Lib Binfmt

variable {T C : Type} {S : Sha256}

theorem lawful_assumption : Lawful Assumption S := lawful_leaf (fun _ _ => rfl) fun _ _ => Iff.rfl

theorem lawful_systemState : Lawful SystemState S := lawful_leaf (fun _ _ => rfl) fun _ _ => Iff.rfl

theorem lawful_work : Lawful Work S := lawful_leaf (fun _ _ => rfl) fun _ _ => Iff.rfl

theorem lawful_bytes : Lawful (List Byte) S := lawful_leaf (fun _ _ => rfl) fun _ _ => Iff.rfl

theorem lawful_input : Lawful Input S where
  digest_of_merge {p} := nomatch p
  digest_of_prunes {c} := nomatch c
  joined {c} := nomatch c
  unique {c} := nomatch c

theorem lawful_assumptionElem : Lawful (MaybePruned Assumption) S :=
  lawful_maybePruned lawful_assumption fun _ => id

theorem lawful_assumptions : Lawful Assumptions S where
  digest_of_merge {p q r} hm := by
    by_cases hlength : p.list.length = q.list.length
    · simp only [merge, ne_eq, hlength, not_true_eq_false, if_false] at hm
      obtain ⟨rs, hrs, hr⟩ := bind_ok_iff.mp hm
      cases hr
      obtain ⟨hp, hq⟩ := digests_of_merge lawful_assumptionElem hlength hrs
      exact ⟨congrArg (taggedList S "risc0.Assumptions") hp, congrArg (taggedList S "risc0.Assumptions") hq⟩
    · simp only [merge, ne_eq, hlength, not_false_eq_true, if_true] at hm
      cases hm
  digest_of_prunes {c p} hp := by
    exact congrArg (taggedList S "risc0.Assumptions") (digests_of_prunes lawful_assumptionElem hp)
  joined {c p q} hp hq := by
    have hlength : p.list.length = q.list.length := by
      rw [← hp.length_eq, ← hq.length_eq]
    obtain ⟨rs, hrs, hprunes, hiff⟩ := joined_list lawful_assumptionElem hp hq
    refine ⟨⟨rs⟩, ?_, hprunes, fun path => ?_⟩
    · simp only [merge, ne_eq, hlength, not_true_eq_false, if_false]
      exact bind_ok_iff.mpr ⟨rs, hrs, rfl⟩
    · rcases path with _ | ⟨step, path⟩
      · simp [populated]
      · cases step <;> simp [populated, hiff]
  unique {c p q} hp hq hiff := by
    have hlist : p.list = q.list := unique_list lawful_assumptionElem hp hq fun i path => hiff (.index i :: path)
    exact congrArg Assumptions.mk hlist

theorem lawful_journal : Lawful (MaybePruned (List Byte)) S := lawful_maybePruned lawful_bytes fun _ => id

theorem lawful_outputAssumptions : Lawful (MaybePruned Assumptions) S := lawful_maybePruned lawful_assumptions fun _ => id

theorem lawful_output : Lawful Output S where
  digest_of_merge {p q r} hm := by
    obtain ⟨journal, hjournal, hm⟩ := bind_ok_iff.mp hm
    obtain ⟨assumptions, hassumptions, hm⟩ := bind_ok_iff.mp hm
    cases hm
    have hj := lawful_journal.digest_of_merge hjournal
    have ha := lawful_outputAssumptions.digest_of_merge hassumptions
    show taggedStruct S _ [digest S journal, digest S assumptions] _ = taggedStruct S _ [_, _] _ ∧
      taggedStruct S _ [digest S journal, digest S assumptions] _ = taggedStruct S _ [_, _] _
    exact ⟨by rw [hj.1, ha.1], by rw [hj.2, ha.2]⟩
  digest_of_prunes {c p} hp := by
    show taggedStruct S _ [digest S p.journal, digest S p.assumptions] _ = taggedStruct S _ [_, _] _
    rw [lawful_journal.digest_of_prunes hp.1, lawful_outputAssumptions.digest_of_prunes hp.2]
  joined {c p q} hp hq := by
    obtain ⟨journal, hj⟩ := lawful_journal.joined hp.1 hq.1
    obtain ⟨assumptions, ha⟩ := lawful_outputAssumptions.joined hp.2 hq.2
    refine ⟨⟨journal, assumptions⟩, ?_, ⟨hj.prunes, ha.prunes⟩, fun path => ?_⟩
    · exact bind_ok_iff.mpr ⟨_, hj.merge_eq, bind_ok_iff.mpr ⟨_, ha.merge_eq, rfl⟩⟩
    · rcases path with _ | ⟨step, path⟩
      · simp [populated]
      · cases step with
        | journal => exact hj.populated_iff path
        | assumptions => exact ha.populated_iff path
        | _ => simp [populated]
  unique {c p q} hp hq hiff := by
    have hj := lawful_journal.unique hp.1 hq.1 fun path => hiff (.journal :: path)
    have ha := lawful_outputAssumptions.unique hp.2 hq.2 fun path => hiff (.assumptions :: path)
    exact congrArg₂ Output.mk hj ha

theorem lawful_state : Lawful (MaybePruned SystemState) S := lawful_maybePruned lawful_systemState fun _ => id

theorem lawful_claimInput : Lawful (MaybePruned (Option Input)) S :=
  lawful_maybePruned (lawful_option lawful_input) fun _ h => nomatch h.choose

theorem lawful_claimOutput : Lawful (MaybePruned (Option Output)) S :=
  lawful_maybePruned (lawful_option lawful_output) fun _ h => h.choose_spec.2

theorem merge_of_exitCode {p q : ReceiptClaim} (h : p.exitCode = q.exitCode) : merge S p q = (do
      return { pre := ← merge S p.pre q.pre
               post := ← merge S p.post q.post
               exitCode := p.exitCode
               input := ← merge S p.input q.input
               output := ← merge S p.output q.output }) :=
  if_neg (not_not.mpr h)

theorem exitCode_of_merge {p q r : ReceiptClaim} (h : merge S p q = .ok r) : p.exitCode = q.exitCode := by
  by_contra hne
  have herror : merge S p q = .error (inequality S p q) := if_pos hne
  rw [herror] at h
  cases h

theorem receiptClaim_digest (c : ReceiptClaim) :
    digest S c = taggedStruct S "risc0.ReceiptClaim" [digest S c.input, digest S c.pre, digest S c.post, digest S c.output]
      [c.exitCode.intoPair.1, c.exitCode.intoPair.2] := rfl

theorem lawful_receiptClaim : Lawful ReceiptClaim S where
  digest_of_merge {p q r} hm := by
    have hexit := exitCode_of_merge hm
    rw [merge_of_exitCode hexit] at hm
    obtain ⟨pre, hpre, hm⟩ := bind_ok_iff.mp hm
    obtain ⟨post, hpost, hm⟩ := bind_ok_iff.mp hm
    obtain ⟨input, hinput, hm⟩ := bind_ok_iff.mp hm
    obtain ⟨output, houtput, hm⟩ := bind_ok_iff.mp hm
    cases hm
    have h1 := lawful_state.digest_of_merge hpre
    have h2 := lawful_state.digest_of_merge hpost
    have h3 := lawful_claimInput.digest_of_merge hinput
    have h4 := lawful_claimOutput.digest_of_merge houtput
    constructor
    · rw [receiptClaim_digest, receiptClaim_digest, h1.1, h2.1, h3.1, h4.1]
    · rw [receiptClaim_digest, receiptClaim_digest, h1.2, h2.2, h3.2, h4.2, hexit]
  digest_of_prunes {c p} hp := by
    obtain ⟨hpre, hpost, hexit, hinput, houtput⟩ := hp
    rw [receiptClaim_digest, receiptClaim_digest, lawful_state.digest_of_prunes hpre,
      lawful_state.digest_of_prunes hpost, lawful_claimInput.digest_of_prunes hinput,
      lawful_claimOutput.digest_of_prunes houtput, hexit]
  joined {c p q} hp hq := by
    obtain ⟨hpre, hpost, hexit, hinput, houtput⟩ := hp
    obtain ⟨hpre', hpost', hexit', hinput', houtput'⟩ := hq
    have hexits : p.exitCode = q.exitCode := hexit.trans hexit'.symm
    obtain ⟨pre, h1⟩ := lawful_state.joined hpre hpre'
    obtain ⟨post, h2⟩ := lawful_state.joined hpost hpost'
    obtain ⟨input, h3⟩ := lawful_claimInput.joined hinput hinput'
    obtain ⟨output, h4⟩ := lawful_claimOutput.joined houtput houtput'
    refine ⟨⟨pre, post, p.exitCode, input, output⟩, ?_, ⟨h1.prunes, h2.prunes, hexit, h3.prunes, h4.prunes⟩,
      fun path => ?_⟩
    · rw [merge_of_exitCode hexits]
      refine bind_ok_iff.mpr ⟨_, h1.merge_eq, ?_⟩
      refine bind_ok_iff.mpr ⟨_, h2.merge_eq, ?_⟩
      refine bind_ok_iff.mpr ⟨_, h3.merge_eq, ?_⟩
      exact bind_ok_iff.mpr ⟨_, h4.merge_eq, rfl⟩
    · rcases path with _ | ⟨step, path⟩
      · simp [populated]
      · cases step with
        | pre => exact h1.populated_iff path
        | post => exact h2.populated_iff path
        | input => exact h3.populated_iff path
        | output => exact h4.populated_iff path
        | _ => simp [populated]
  unique {c p q} hp hq hiff := by
    obtain ⟨hpre, hpost, hexit, hinput, houtput⟩ := hp
    obtain ⟨hpre', hpost', hexit', hinput', houtput'⟩ := hq
    have h1 := lawful_state.unique hpre hpre' fun path => hiff (.pre :: path)
    have h2 := lawful_state.unique hpost hpost' fun path => hiff (.post :: path)
    have h3 := lawful_claimInput.unique hinput hinput' fun path => hiff (.input :: path)
    have h4 := lawful_claimOutput.unique houtput houtput' fun path => hiff (.output :: path)
    have hexits : p.exitCode = q.exitCode := hexit.trans hexit'.symm
    cases p
    cases q
    exact ReceiptClaim.mk.injEq .. ▸ ⟨h1, h2, hexits, h3, h4⟩

theorem lawful_workField : Lawful (MaybePruned Work) S := lawful_maybePruned lawful_work fun _ => id

theorem lawful_workClaim [Prunable C] (h : Lawful (MaybePruned C) S) : Lawful (WorkClaim C) S where
  digest_of_merge {p q r} hm := by
    obtain ⟨claim, hclaim, hm⟩ := bind_ok_iff.mp hm
    obtain ⟨work, hwork, hm⟩ := bind_ok_iff.mp hm
    cases hm
    have hc := h.digest_of_merge hclaim
    have hw := lawful_workField.digest_of_merge hwork
    show taggedStruct S _ [digest S claim, digest S work] _ = taggedStruct S _ [_, _] _ ∧
      taggedStruct S _ [digest S claim, digest S work] _ = taggedStruct S _ [_, _] _
    exact ⟨by rw [hc.1, hw.1], by rw [hc.2, hw.2]⟩
  digest_of_prunes {c p} hp := by
    show taggedStruct S _ [digest S p.claim, digest S p.work] _ = taggedStruct S _ [_, _] _
    rw [h.digest_of_prunes hp.1, lawful_workField.digest_of_prunes hp.2]
  joined {c p q} hp hq := by
    obtain ⟨claim, hc⟩ := h.joined hp.1 hq.1
    obtain ⟨work, hw⟩ := lawful_workField.joined hp.2 hq.2
    refine ⟨⟨claim, work⟩, ?_, ⟨hc.prunes, hw.prunes⟩, fun path => ?_⟩
    · exact bind_ok_iff.mpr ⟨_, hc.merge_eq, bind_ok_iff.mpr ⟨_, hw.merge_eq, rfl⟩⟩
    · rcases path with _ | ⟨step, path⟩
      · simp [populated]
      · cases step with
        | claim => exact hc.populated_iff path
        | work => exact hw.populated_iff path
        | _ => simp [populated]
  unique {c p q} hp hq hiff := by
    have hc := h.unique hp.1 hq.1 fun path => hiff (.claim :: path)
    have hw := lawful_workField.unique hp.2 hq.2 fun path => hiff (.work :: path)
    exact congrArg₂ WorkClaim.mk hc hw

/-- The prunings of one claim, whatever fields it has itself, form a semilattice under
merge, and no merge changes a digest. -/
structure MergeLaw (T : Type) [Prunable T] (S : Sha256) : Prop where
  union : ∀ c p q : T, Prunes S c p → Prunes S c q →
    ∃ r, merge S p q = .ok r ∧ mergeWith S p q = (.ok (), r) ∧ digest S r = digest S c ∧
      ∀ path, populated r path ↔ populated p path ∨ populated q path
  comm : ∀ c p q : T, Prunes S c p → Prunes S c q → merge S p q = merge S q p
  assoc : ∀ c p q s : T, Prunes S c p → Prunes S c q → Prunes S c s →
    (do merge S (← merge S p q) s) = (do merge S p (← merge S q s))
  idem : ∀ c p : T, Prunes S c p → merge S p p = .ok p
  digest_eq : ∀ p q r : T, merge S p q = .ok r → digest S r = digest S p ∧ digest S r = digest S q

theorem Lawful.mergeLaw [Prunable T] (h : Lawful T S) : MergeLaw T S where
  union c p q hp hq := by
    obtain ⟨r, hr⟩ := h.joined hp hq
    refine ⟨r, hr.merge_eq, ?_, h.digest_of_prunes hr.prunes, hr.populated_iff⟩
    rw [mergeWith, hr.merge_eq]
  comm c p q hp hq := by
    obtain ⟨r, hr⟩ := h.joined hp hq
    obtain ⟨r', hr'⟩ := h.joined hq hp
    rw [hr.merge_eq, hr'.merge_eq]
    congr 1
    apply h.unique hr.prunes hr'.prunes
    intro path
    rw [hr.populated_iff, hr'.populated_iff, or_comm]
  assoc c p q s hp hq hs := by
    obtain ⟨pq, hpq⟩ := h.joined hp hq
    obtain ⟨r, hr⟩ := h.joined hpq.prunes hs
    obtain ⟨qs, hqs⟩ := h.joined hq hs
    obtain ⟨r', hr'⟩ := h.joined hp hqs.prunes
    have hleft : (do merge S (← merge S p q) s) = .ok r := bind_ok_iff.mpr ⟨pq, hpq.merge_eq, hr.merge_eq⟩
    have hright : (do merge S p (← merge S q s)) = .ok r' := bind_ok_iff.mpr ⟨qs, hqs.merge_eq, hr'.merge_eq⟩
    rw [hleft, hright]
    congr 1
    apply h.unique hr.prunes hr'.prunes
    intro path
    rw [hr.populated_iff, hpq.populated_iff, hr'.populated_iff, hqs.populated_iff, or_assoc]
  idem c p hp := by
    obtain ⟨r, hr⟩ := h.joined hp hp
    rw [hr.merge_eq]
    congr 1
    apply h.unique hr.prunes hp
    intro path
    rw [hr.populated_iff, or_self_iff]
  digest_eq _ _ _ := h.digest_of_merge

/-- Receipt claims and work claims merge by this law, held as values or themselves
possibly pruned. -/
theorem claim_merge_law (S : Sha256) : MergeLaw ReceiptClaim S ∧ MergeLaw (MaybePruned ReceiptClaim) S ∧
      MergeLaw (WorkClaim ReceiptClaim) S ∧ MergeLaw (MaybePruned (WorkClaim ReceiptClaim)) S := by
  have hclaim : Lawful (MaybePruned ReceiptClaim) S := lawful_maybePruned lawful_receiptClaim fun _ => id
  have hwork : Lawful (MaybePruned (WorkClaim ReceiptClaim)) S :=
    lawful_maybePruned (lawful_workClaim hclaim) fun _ => id
  exact ⟨lawful_receiptClaim.mergeLaw, hclaim.mergeLaw, (lawful_workClaim hclaim).mergeLaw, hwork.mergeLaw⟩

def sampleHash : Sha256 := fun bytes => .replicate 32 (.ofNat 8 bytes.length)

def sampleClaim : ReceiptClaim :=
  { pre := .value ⟨4, .zero⟩, post := .value ⟨8, .zero⟩, exitCode := .halted 0, input := .value none
    output := .value (some ⟨.value [1, 2, 3], .value ⟨[.value ⟨.zero, .zero⟩]⟩⟩) }

/-- The start state is pruned on one side, the output on the other. -/
theorem claim_merge_law_sample :
    ∃ r, merge sampleHash { sampleClaim with pre := .pruned (digest sampleHash sampleClaim.pre) }
        { sampleClaim with output := .pruned (digest sampleHash sampleClaim.output) } = .ok r ∧
      digest sampleHash r = digest sampleHash sampleClaim := by
  have houtput : Prunes sampleHash sampleClaim.output sampleClaim.output :=
    .inr ⟨_, _, rfl, rfl, .inr ⟨_, _, rfl, rfl, .inr ⟨_, _, rfl, rfl, rfl⟩,
      .inr ⟨_, _, rfl, rfl, .cons (.inr ⟨_, _, rfl, rfl, rfl⟩) .nil⟩⟩⟩
  have hpre : Prunes sampleHash sampleClaim.pre sampleClaim.pre := .inr ⟨_, _, rfl, rfl, rfl⟩
  have hpost : Prunes sampleHash sampleClaim.post sampleClaim.post := .inr ⟨_, _, rfl, rfl, rfl⟩
  have hinput : Prunes sampleHash sampleClaim.input sampleClaim.input := .inr ⟨_, _, rfl, rfl, .inl ⟨rfl, rfl⟩⟩
  obtain ⟨r, hr, -, hdigest, -⟩ := (claim_merge_law sampleHash).1.union sampleClaim
    { sampleClaim with pre := .pruned (digest sampleHash sampleClaim.pre) }
    { sampleClaim with output := .pruned (digest sampleHash sampleClaim.output) }
    ⟨.inl rfl, hpost, rfl, hinput, houtput⟩ ⟨hpre, hpost, rfl, hinput, .inl rfl⟩
  exact ⟨r, hr, hdigest⟩

example : merge sampleHash { sampleClaim with pre := .pruned (digest sampleHash sampleClaim.pre) }
    { sampleClaim with output := .pruned (digest sampleHash sampleClaim.output) } = .ok sampleClaim :=
  rfl

end VerifiableCompute.Claim
