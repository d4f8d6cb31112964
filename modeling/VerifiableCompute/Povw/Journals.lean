import VerifiableCompute.Lib.History
import VerifiableCompute.Povw.Rewards

/-! What an accepted journal says about the blocks it was computed from: which epochs
count as finalized, that the updates of each log form a chain that is complete up to
the block before the last finalization, and how the ratchet of the minting contract
moves. -/

namespace VerifiableCompute.Povw

open Lib WordOrder List
open Market (U64 U96 U256 Address Bytes Bytes32)

variable {acc r : OrderedMap ℕ ℕ × Option ℕ} {id : Address} {us : List UpdateEvent} {input : Input} {c : Calculation} {w w' : MintCommits}

theorem collectBlock_eq_some {number : ℕ} {finalized : List (ℕ × ℕ)}
    (h : finalized.foldlM (fun acc event => match acc.1.get? event.1 with
      | none => some (acc.1.insert event.1 event.2, some number)
      | some _ => none) acc = some r) :
    (∀ e total, r.1.get? e = some total → acc.1.get? e = some total ∨ (e, total) ∈ finalized) ∧
      (finalized = [] ∧ r.2 = acc.2 ∨ r.2 = some number) := by
  induction finalized generalizing acc with
  | nil =>
    cases h
    exact ⟨fun _ _ h => .inl h, .inl ⟨rfl, rfl⟩⟩
  | cons event finalized ih =>
    rw [foldlM_cons] at h
    cases hget : acc.1.get? event.1 with
    | some total =>
      simp only [hget] at h
      cases h
    | none =>
      simp only [hget] at h
      obtain ⟨hepochs, hlatest⟩ := ih h
      refine ⟨fun e total htotal => ?_, .inr ?_⟩
      · rcases hepochs e total htotal with hold | hmem
        · rw [OrderedMap.get?_insert] at hold
          split_ifs at hold with he
          · cases hold
            exact .inr (he ▸ mem_cons_self)
          · exact .inl hold
        · exact .inr (mem_cons_of_mem _ hmem)
      · rcases hlatest with ⟨-, hlatest⟩ | hlatest
        · exact hlatest
        · exact hlatest

/-- Every epoch was finalized in one of the blocks, and no finalization is in a later
block than the last one recorded. -/
theorem collectEpochs_eq_some {envs : List Env} (hsorted : envs.Pairwise fun x y => x.number ≤ y.number)
    (h : collectEpochs envs acc = some r) :
    (∀ e total, r.1.get? e = some total → acc.1.get? e = some total ∨ ∃ env ∈ envs, (e, total) ∈ env.epochFinalized) ∧
      (r.2 = acc.2 ∧ (∀ env ∈ envs, env.epochFinalized = []) ∨
        ∃ latest ∈ envs, r.2 = some latest.number ∧
          ∀ env ∈ envs, env.epochFinalized ≠ [] → env.number ≤ latest.number) := by
  induction envs generalizing acc with
  | nil =>
    cases h
    exact ⟨fun _ _ h => .inl h, .inl ⟨rfl, by simp⟩⟩
  | cons env envs ih =>
    rw [pairwise_cons] at hsorted
    simp only [collectEpochs, Option.bind_eq_bind, Option.bind_eq_some_iff] at h
    obtain ⟨acc', hblock, h⟩ := h
    obtain ⟨hepochs, hlatest⟩ := ih hsorted.2 h
    obtain ⟨hepochs', hlatest'⟩ := collectBlock_eq_some hblock
    refine ⟨fun e total htotal => ?_, ?_⟩
    · rcases hepochs e total htotal with hold | ⟨env', henv', hmem⟩
      · rcases hepochs' e total hold with hold | hmem
        · exact .inl hold
        · exact .inr ⟨env, mem_cons_self, hmem⟩
      · exact .inr ⟨env', mem_cons_of_mem _ henv', hmem⟩
    · rcases hlatest with ⟨hsame, hnone⟩ | ⟨latest, hmem, hnumber, hle⟩
      · rcases hlatest' with ⟨hempty, hsame'⟩ | hnumber
        · exact .inl ⟨hsame.trans hsame', forall_mem_cons.mpr ⟨hempty, hnone⟩⟩
        · refine .inr ⟨env, mem_cons_self, hsame.trans hnumber, forall_mem_cons.mpr ⟨fun _ => le_rfl, ?_⟩⟩
          exact fun env' henv' hne => absurd (hnone env' henv') hne
      · refine .inr ⟨latest, mem_cons_of_mem _ hmem, hnumber, forall_mem_cons.mpr ⟨fun _ => ?_, hle⟩⟩
        exact hsorted.1 latest hmem

def processedOf (id : Address) (filter : WorkLogFilter) (epochs : OrderedMap ℕ ℕ) (events : List UpdateEvent) :
    List UpdateEvent :=
  (events.filter (processed filter epochs)).filter fun event => event.workLogId = id

/-- The recorded commits of a log are the ends of the chain of its updates. -/
inductive ChainOf (us : List UpdateEvent) : Option (Bytes32 × Bytes32) → Prop where
  | none (empty : us = []) : ChainOf us none
  | some (initialCommit updatedCommit : Bytes32) (nonempty : us ≠ [])
      (linked : Linked UpdateEvent.initialCommit UpdateEvent.updatedCommit initialCommit us updatedCommit) :
      ChainOf us (some (initialCommit, updatedCommit))

theorem chainUpdate_eq_some {updates updates' : OrderedMap Address (Bytes32 × Bytes32)} {event : UpdateEvent}
    (h : chainUpdate updates event = some updates') (hchain : ChainOf us (updates.get? id)) :
    ChainOf (us ++ if event.workLogId = id then [event] else []) (updates'.get? id) := by
  by_cases hid : event.workLogId = id
  · subst hid
    rw [if_pos rfl]
    unfold chainUpdate at h
    cases hget : updates.get? event.workLogId with
    | none =>
      rw [hget] at h hchain
      cases h
      cases hchain with
      | none hempty =>
        subst hempty
        rw [OrderedMap.get?_insert, if_pos rfl]
        exact .some _ _ (cons_ne_nil _ _) ⟨rfl, rfl⟩
    | some commits =>
      rw [hget] at h hchain
      obtain ⟨hnext, h⟩ := Option.ite_none_right_eq_some.mp h
      cases h
      cases hchain with
      | some initialCommit updatedCommit hne hlinked =>
        rw [OrderedMap.get?_insert, if_pos rfl]
        refine .some _ _ (by simp) ((linked_append _ _ _ _).mpr ?_)
        rw [hlinked.endOf_eq]
        exact ⟨hlinked, hnext.symm, rfl⟩
  · have hsame : updates'.get? id = updates.get? id := by
      unfold chainUpdate at h
      split at h
      · cases h
        rw [OrderedMap.get?_insert, if_neg (Ne.symm hid)]
      · obtain ⟨-, h⟩ := Option.ite_none_right_eq_some.mp h
        cases h
        rw [OrderedMap.get?_insert, if_neg (Ne.symm hid)]
    rwa [if_neg hid, append_nil, hsame]

theorem collectUpdates_chains {filter : WorkLogFilter} {epochs : OrderedMap ℕ ℕ} {events : List UpdateEvent}
    {acc r : OrderedMap Address (Bytes32 × Bytes32) × RewardWeightMap} (h : collectUpdates filter epochs events acc = some r)
    (hchain : ChainOf us (acc.1.get? id)) : ChainOf (us ++ processedOf id filter epochs events) (r.1.get? id) := by
  induction events generalizing acc us with
  | nil =>
    cases h
    simpa [processedOf] using hchain
  | cons event events ih =>
    unfold collectUpdates at h
    split_ifs at h with hprocessed
    · simp only [Option.bind_eq_bind, Option.bind_eq_some_iff] at h
      obtain ⟨updates, hupdates, weights, -, h⟩ := h
      have hrest := ih h (chainUpdate_eq_some hupdates hchain)
      rw [processedOf, filter_cons_of_pos hprocessed, filter_cons]
      by_cases hid : event.workLogId = id
      · rw [if_pos hid, append_assoc] at hrest
        rwa [if_pos (by simpa using hid)]
      · rw [if_neg hid, append_nil] at hrest
        rwa [if_neg (by simpa using hid)]
    · have hrest := ih h hchain
      rwa [processedOf, filter_cons_of_neg hprocessed]

def envsOf (chain : Contracts → ℕ → Env) (input : Input) : List Env :=
  (input.blocks.insertionSort (· ≤ ·)).map (chain input.contracts)

structure Checked (chain : Contracts → ℕ → Env) (input : Input) (c : Calculation) : Prop where
  distinct : input.blocks.Nodup
  epochs : collectEpochs (envsOf chain input) (.empty, none) = some (c.epochs, some c.latestEpochFinalizationBlock)
  updates : collectUpdates input.workLogFilter c.epochs ((envsOf chain input).flatMap Env.workLogUpdated)
    (.empty, .empty) = some (c.updates, c.weights)
  complete : ∃ env ∈ envsOf chain input, env.number + 1 = c.latestEpochFinalizationBlock ∧
    ∀ id commits, c.updates.get? id = some commits → env.workLogCommit id = commits.2
  awards : ∃ env ∈ envsOf chain input, env.number = c.latestEpochFinalizationBlock ∧
    allRewards env c.weights.entries = some c.awards

theorem calculate_eq_some {chain : Contracts → ℕ → Env}
    (h : calculate chain input = some c) : Checked chain input c := by
  simp only [calculate, intoEnv, Option.bind_eq_bind, Option.bind_eq_some_iff, Option.ite_none_right_eq_some,
    all_eq_true, decide_eq_true_eq] at h
  obtain ⟨envs, ⟨hdistinct, henvs⟩, ⟨epochs, _⟩, hepochs, ⟨updates, weights⟩, hupdates, latest, rfl, h⟩ := h
  cases henvs
  split_ifs at h with hzero
  · cases h
  · simp only [Option.bind_eq_some_iff, Option.ite_none_right_eq_some] at h
    obtain ⟨env, hfind, hcomplete, env', hfind', awards, hawards, h⟩ := h
    cases h
    refine ⟨hdistinct, hepochs, hupdates, ⟨env, mem_of_find?_eq_some hfind, ?_, fun id commits hget => ?_⟩,
      env', mem_of_find?_eq_some hfind', by simpa using find?_some hfind', hawards⟩
    · have hnumber : env.number = latest - 1 := by simpa using find?_some hfind
      dsimp only
      omega
    · exact hcomplete _ (OrderedMap.mem_entries_iff.mpr hget)

theorem mintUpdates_eq_ok {updates : List MintCalculatorUpdate} (hnodup : (updates.map (·.workLogId)).Nodup)
    (h : mintUpdates updates w = .ok w') :
    (∀ u ∈ updates, u.initialCommit = readCommit (w u.workLogId) ∧ w' u.workLogId = u.updatedCommit) ∧
      ∀ id, id ∉ updates.map (·.workLogId) → w' id = w id := by
  induction updates generalizing w with
  | nil =>
    cases h
    simp
  | cons u updates ih =>
    simp only [mintUpdates, bind_ok_iff, require_ok_iff] at h
    obtain ⟨-, hinitial, h⟩ := h
    rw [map_cons, nodup_cons] at hnodup
    obtain ⟨hmem, hother⟩ := ih hnodup.2 h
    refine ⟨forall_mem_cons.mpr ⟨⟨hinitial, ?_⟩, fun v hv => ?_⟩, fun id hid => ?_⟩
    · rw [hother _ hnodup.1, Function.update_self]
    · have hne : v.workLogId ≠ u.workLogId := fun heq => hnodup.1 (heq ▸ mem_map_of_mem hv)
      have hv' := hmem v hv
      rwa [Function.update_of_ne hne] at hv'
    · rw [map_cons, mem_cons, not_or] at hid
      rw [hother id hid.2, Function.update_of_ne hid.1]

/-- The ratchet of a log that the journal updates must stand at the start of its chain
and moves to its end. -/
theorem mint_eq_ok {cfg : Contracts}
    {mints : List MintCalculatorMint} (h : mint cfg (c.journal input) w = .ok (w', mints)) :
    input.contracts = cfg ∧ mints = (c.journal input).mints ∧ ∀ id, match c.updates.get? id with
      | some commits => commits.1 = readCommit (w id) ∧ w' id = commits.2
      | none => w' id = w id := by
  simp only [mint, bind_ok_iff, require_ok_iff] at h
  obtain ⟨-, haccounting, -, htoken, -, hrewards, _, hupdates, h⟩ := h
  cases h
  have hkeys : (c.journal input).updates.map (·.workLogId) = c.updates.entries.map Prod.fst := by
    simp [Calculation.journal, Function.comp_def]
  obtain ⟨hmem, hother⟩ := mintUpdates_eq_ok (hkeys ▸ c.updates.nodup_keys) hupdates
  refine ⟨?_, rfl, fun id => ?_⟩
  · obtain ⟨accounting, token, tokenRewards⟩ := cfg
    simp only [Calculation.journal] at haccounting htoken hrewards
    subst haccounting htoken hrewards
    rfl
  · cases hget : c.updates.get? id with
    | some commits =>
      exact hmem ⟨id, commits.1, commits.2⟩ (mem_map_of_mem (f := fun e : Address × Bytes32 × Bytes32 =>
        (⟨e.1, e.2.1, e.2.2⟩ : MintCalculatorUpdate)) (OrderedMap.mem_entries_iff.mpr hget))
    | none =>
      refine hother id fun hid => ?_
      rw [hkeys] at hid
      obtain ⟨⟨_, commits⟩, he, rfl⟩ := mem_map.mp hid
      rw [OrderedMap.mem_entries_iff.mp he] at hget
      cases hget

end VerifiableCompute.Povw
