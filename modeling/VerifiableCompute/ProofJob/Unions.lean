import VerifiableCompute.Lib.Mountain
import VerifiableCompute.ProofJob.Actor

/-! The layers of keccak receipts. A layer is as long as its last receipt wants it, and the layers
have their final lengths exactly when every complete tree is there. -/

namespace VerifiableCompute.ProofJob

open Lib List

/-- The receipt over the batches of one complete tree. -/
def node (height pos : ℕ) : UnknownReceipt := subtree .union .keccak height pos

def unionAt (unions : List (List (Option UnknownReceipt))) (height pos : ℕ) : Option UnknownReceipt :=
  (unions[height]?.bind fun layer => layer[pos]?).join

/-- The slots are filled from below, with receipts of trees over the first `count` batches. -/
structure Filling (count : ℕ) (unions : List (List (Option UnknownReceipt))) : Prop where
  value : ∀ h p t, unionAt unions h p = some t → t = node h p ∧ (p + 1) * 2 ^ h ≤ count
  children : ∀ h p, unionAt unions (h + 1) p ≠ none → unionAt unions h (2 * p) ≠ none ∧ unionAt unions h (2 * p + 1) ≠ none
  last : ∀ (h : ℕ) (layer : List (Option UnknownReceipt)), unions[h]? = some layer → ∃ t, layer.getLast? = some (some t)

/-- Every complete tree is there. -/
def Full (count : ℕ) (unions : List (List (Option UnknownReceipt))) : Prop :=
  ∀ h p, (p + 1) * 2 ^ h ≤ count → unionAt unions h p ≠ none

variable {count : ℕ} {unions : List (List (Option UnknownReceipt))}

theorem filling_nil (count : ℕ) : Filling count [] := by
  refine ⟨fun h p t ht => ?_, fun h p hne => absurd rfl hne, fun h layer hlayer => ?_⟩
  · cases ht
  · cases hlayer

theorem Filling.mono {count' : ℕ} (h : Filling count unions) (hle : count ≤ count') : Filling count' unions :=
  ⟨fun k p t ht => ⟨(h.value k p t ht).1, (h.value k p t ht).2.trans hle⟩, h.children, h.last⟩

theorem getElem?_resized {α : Type} (length : ℕ) (fill : α) (l : List α) (i : ℕ) :
    (resized length fill l)[i]? = if i < l.length then l[i]? else if i < length then some fill else none := by
  rw [resized]
  split
  next hi => exact getElem?_append_left hi
  next hi =>
    rw [getElem?_append_right (by omega), getElem?_replicate]
    split <;> split <;> first | rfl | omega

theorem length_resized {α : Type} (length : ℕ) (fill : α) (l : List α) : (resized length fill l).length = max length l.length := by
  rw [resized, length_append, length_replicate]
  omega

theorem placeUnion_ok (pos height : ℕ) (receipt : UnknownReceipt) (unions : List (List (Option UnknownReceipt))) :
    ∃ unions' layer, JobActor.placeUnion pos height receipt unions = .ok (unions', layer) ∧ unions'[height]? = some layer ∧
      unions'.length = max (height + 1) unions.length ∧ layer.length = max (pos + 1) (unions.getD height []).length ∧
      (∀ h, h ≠ height → h < unions.length → unions'[h]? = unions[h]?) ∧
      ∀ h p, unionAt unions' h p = if h = height ∧ p = pos then some receipt else unionAt unions h p := by
  have hlength := length_resized (height + 1) [] unions
  have hheight : height < (resized (height + 1) [] unions).length := by omega
  have hlayer : (resized (height + 1) [] unions)[height]? = some (unions.getD height []) := by
    rw [getElem?_resized, getD_eq_getElem?_getD]
    split
    next hlt => rw [getElem?_eq_getElem hlt, Option.getD_some]
    next hge => rw [if_pos (Nat.lt_succ_self height), getElem?_eq_none (by omega), Option.getD_none]
  have hslots := length_resized (pos + 1) none (unions.getD height [])
  have hpos : pos < (resized (pos + 1) none (unions.getD height [])).length := by omega
  refine ⟨(resized (height + 1) [] unions).set height ((resized (pos + 1) none (unions.getD height [])).set pos (some receipt)),
    (resized (pos + 1) none (unions.getD height [])).set pos (some receipt), ?_, ?_, ?_, ?_, fun h hne hlt => ?_, fun h p => ?_⟩
  · refine bind_ok_iff.mpr ⟨unions.getD height [], ?_, bind_ok_iff.mpr ⟨(), ?_, rfl⟩⟩
    · rw [hlayer]
      rfl
    · exact require_ok_iff.mpr hpos
  · rw [getElem?_set_self hheight]
  · rw [length_set, hlength]
  · rw [length_set, hslots]
  · rw [getElem?_set_ne (Ne.symm hne), getElem?_resized, if_pos hlt]
  · rw [unionAt, unionAt]
    by_cases hh : h = height
    · subst hh
      rw [getElem?_set_self hheight, Option.bind_some]
      by_cases hp : p = pos
      · subst hp
        rw [getElem?_set_self hpos, if_pos ⟨rfl, rfl⟩]
        rfl
      · rw [getElem?_set_ne (Ne.symm hp), if_neg fun heq => hp heq.2, getElem?_resized, getD_eq_getElem?_getD]
        cases unions[h]? with
        | none =>
          simp only [Option.getD_none, length_nil, Nat.not_lt_zero, if_false, Option.bind_none, Option.join_none]
          split <;> rfl
        | some layer =>
          simp only [Option.getD_some, Option.bind_some]
          split
          · rfl
          · rw [getElem?_eq_none (by omega)]
            split <;> rfl
    · rw [getElem?_set_ne (Ne.symm hh), if_neg fun heq => hh heq.1, getElem?_resized]
      split
      · rfl
      next hge =>
        rw [getElem?_eq_none (by omega)]
        split <;> rfl

/-- A tree is placed once its children are there. -/
theorem Filling.place (h : Filling count unions) {pos height : ℕ} (hrange : (pos + 1) * 2 ^ height ≤ count)
    (hchildren : ∀ k, height = k + 1 → unionAt unions k (2 * pos) ≠ none ∧ unionAt unions k (2 * pos + 1) ≠ none) :
    ∃ unions' layer, JobActor.placeUnion pos height (node height pos) unions = .ok (unions', layer) ∧ unions'[height]? = some layer ∧
      Filling count unions' ∧ ∀ h p, unionAt unions' h p = if h = height ∧ p = pos then some (node height pos) else unionAt unions h p := by
  obtain ⟨unions', layer, hplace, hlayer, hlength, hslots, hothers, hunionAt⟩ := placeUnion_ok pos height (node height pos) unions
  have hkeeps (k p : ℕ) (hne : unionAt unions k p ≠ none) : unionAt unions' k p ≠ none := by
    rw [hunionAt]
    split
    · exact Option.some_ne_none _
    · exact hne
  have hbelow : height ≤ unions.length := by
    cases height with
    | zero => exact Nat.zero_le _
    | succ k =>
      by_contra hgt
      refine (hchildren k rfl).1 ?_
      rw [unionAt, List.getElem?_eq_none (by omega)]
      rfl
  refine ⟨unions', layer, hplace, hlayer, ⟨fun k p t ht => ?_, fun k p hne => ?_, fun k layer' hlayer' => ?_⟩, hunionAt⟩
  · rw [hunionAt] at ht
    split at ht
    next heq =>
      obtain ⟨rfl, rfl⟩ := heq
      cases ht
      exact ⟨rfl, hrange⟩
    next => exact h.value k p t ht
  · rw [hunionAt] at hne
    split at hne
    next heq =>
      obtain ⟨heq, rfl⟩ := heq
      obtain ⟨hleft, hright⟩ := hchildren k heq.symm
      exact ⟨hkeeps _ _ hleft, hkeeps _ _ hright⟩
    next =>
      obtain ⟨hleft, hright⟩ := h.children k p hne
      exact ⟨hkeeps _ _ hleft, hkeeps _ _ hright⟩
  · by_cases hk : k = height
    · subst hk
      rw [hlayer] at hlayer'
      cases hlayer'
      -- The last slot is the new one, or it was filled before.
      have hlast : layer.getLast? = layer[layer.length - 1]? := List.getLast?_eq_getElem?
      have hslot : unionAt unions' k (layer.length - 1) = (layer[layer.length - 1]?).join := by
        rw [unionAt, hlayer, Option.bind_some]
      have hfilled : unionAt unions' k (layer.length - 1) ≠ none := by
        rw [hunionAt]
        split
        next => exact Option.some_ne_none _
        next hne =>
          have hlonger : pos + 1 < (unions.getD k []).length := by
            by_contra hle
            exact hne ⟨rfl, by omega⟩
          have hold : unions[k]? = some (unions.getD k []) := by
            rw [List.getD_eq_getElem?_getD]
            cases hget : unions[k]? with
            | none =>
              rw [List.getD_eq_getElem?_getD, hget] at hlonger
              simp at hlonger
            | some l => rfl
          obtain ⟨t, ht⟩ := h.last k _ hold
          rw [List.getLast?_eq_getElem?] at ht
          rw [unionAt, hold, Option.bind_some, hslots, Nat.max_eq_right (by omega), ht]
          exact Option.some_ne_none _
      rw [hslot] at hfilled
      rw [hlast]
      cases hget : layer[layer.length - 1]? with
      | none =>
        rw [hget] at hfilled
        exact absurd rfl hfilled
      | some slot =>
        rw [hget] at hfilled
        cases slot with
        | none => exact absurd rfl hfilled
        | some t => exact ⟨t, rfl⟩
    · have hlt : k < unions.length := by
        have hk' := (List.getElem?_eq_some_iff.mp hlayer').1
        omega
      rw [hothers k hk hlt] at hlayer'
      exact h.last k layer' hlayer'

variable {n k : ℕ} {a : JobActor}

theorem mmrLayers_two_mul (hn : 0 < n) : mmrLayers (2 * n) = 2 * n :: mmrLayers n := by
  have hhalf : 2 * n / 2 = n := by omega
  rw [mmrLayers, if_pos (by omega), hhalf]

theorem mmrLayers_two_mul_add_one (hn : 0 < n) : mmrLayers (2 * n + 1) = (2 * n + 1) :: mmrLayers n := by
  have hhalf : (2 * n + 1) / 2 = n := by omega
  rw [mmrLayers, if_pos (by omega), hhalf]

theorem mmrLayers_of_le_one (hn : n ≤ 1) : mmrLayers n = [n] := by
  rw [mmrLayers, if_neg (by omega)]

theorem getElem?_mmrLayers (hn : 0 < n) (h : ℕ) : (mmrLayers n)[h]? = if 2 ^ h ≤ n then some (n / 2 ^ h) else none := by
  induction n using Nat.strong_induction_on generalizing h with
  | _ n ih =>
    by_cases hone : n ≤ 1
    · have hn1 : n = 1 := by omega
      subst hn1
      rw [mmrLayers_of_le_one le_rfl]
      cases h with
      | zero => rfl
      | succ h =>
        have := Nat.one_lt_two_pow (Nat.succ_ne_zero h)
        rw [if_neg (by omega)]
        rfl
    · have hlayers : mmrLayers n = n :: mmrLayers (n / 2) := by
        rw [mmrLayers, if_pos (by omega)]
      rw [hlayers]
      cases h with
      | zero => simp [show 1 ≤ n by omega]
      | succ h =>
        rw [getElem?_cons_succ, ih (n / 2) (by omega) (by omega), Nat.div_div_eq_div_mul, ← pow_succ']
        have hiff : 2 ^ h ≤ n / 2 ↔ 2 ^ (h + 1) ≤ n := by
          rw [Nat.le_div_iff_mul_le two_pos, pow_succ]
        simp only [hiff]

theorem layersComplete_iff : a.layersComplete = true ↔
    a.unions ≠ [] ∧ (a.unions.headD []).length = a.keccakCount ∧ a.requiredKeccakLayers = a.unions.map length := by
  have hzip (l m : List ℕ) (hlength : l.length = m.length) : ((l.zip m).all fun e => e.1 = e.2) = true ↔ l = m := by
    induction l generalizing m with
    | nil =>
      cases m with
      | nil => simp
      | cons => simp at hlength
    | cons x l ih =>
      cases m with
      | nil => simp at hlength
      | cons y m =>
        have htail := ih m (by simpa using hlength)
        simp only [zip_cons_cons, all_cons, Bool.and_eq_true, decide_eq_true_eq, htail, cons.injEq]
  rw [JobActor.layersComplete]
  simp only [Bool.and_eq_true, Bool.not_eq_true', isEmpty_eq_false_iff, decide_eq_true_eq, and_assoc]
  refine and_congr_right fun _ => and_congr_right fun _ => ?_
  constructor
  · rintro ⟨hlength, hall⟩
    exact (hzip _ _ (by rw [hlength, length_map])).mp hall
  · intro heq
    have hlength : a.requiredKeccakLayers.length = (a.unions.map length).length := congrArg length heq
    exact ⟨by rw [hlength, length_map], (hzip _ _ hlength).mpr heq⟩

theorem Filling.layer_length (h : Filling count unions) {layer : List (Option UnknownReceipt)} (hlayer : unions[k]? = some layer) :
    ∃ p, layer.length = p + 1 ∧ unionAt unions k p = some (node k p) ∧ (p + 1) * 2 ^ k ≤ count := by
  obtain ⟨t, ht⟩ := h.last k layer hlayer
  rw [List.getLast?_eq_getElem?] at ht
  have hpos := (List.getElem?_eq_some_iff.mp ht).1
  have hunion : unionAt unions k (layer.length - 1) = some t := by
    rw [unionAt, hlayer, Option.bind_some, ht]
    rfl
  obtain ⟨rfl, hrange⟩ := h.value _ _ _ hunion
  exact ⟨layer.length - 1, by omega, hunion, hrange⟩

theorem lt_length_of_unionAt {p : ℕ} (h : unionAt unions k p ≠ none) : ∃ layer, unions[k]? = some layer ∧ p < layer.length := by
  cases hlayer : unions[k]? with
  | none =>
    rw [unionAt, hlayer] at h
    exact absurd rfl h
  | some layer =>
    refine ⟨layer, rfl, ?_⟩
    by_contra hge
    rw [unionAt, hlayer, Option.bind_some, getElem?_eq_none (by omega)] at h
    exact h rfl

/-- The lengths are final exactly when every complete tree is there. -/
theorem Filling.complete_iff (h : Filling count unions) (hcount : 0 < count) :
    mmrLayers count = unions.map length ↔ Full count unions := by
  constructor
  · intro hlengths
    have hlayer (k : ℕ) (hk : 2 ^ k ≤ count) : ∃ layer, unions[k]? = some layer ∧ layer.length = count / 2 ^ k := by
      have hget := congrArg (fun l : List ℕ => l[k]?) hlengths
      simp only [getElem?_mmrLayers hcount, if_pos hk, getElem?_map] at hget
      cases hunions : unions[k]? with
      | none =>
        rw [hunions] at hget
        cases hget
      | some layer =>
        rw [hunions] at hget
        exact ⟨layer, rfl, (Option.some.inj hget).symm⟩
    have hlast (k : ℕ) (hk : 2 ^ k ≤ count) : unionAt unions k (count / 2 ^ k - 1) ≠ none := by
      obtain ⟨layer, hunions, hlength⟩ := hlayer k hk
      obtain ⟨p, hp, hunion, -⟩ := h.layer_length hunions
      rw [show count / 2 ^ k - 1 = p by omega, hunion]
      exact Option.some_ne_none _
    -- From the highest layer down: a tree is the last one of its layer, or its parent is there.
    intro k p hrange
    have hk : 2 ^ k ≤ count := le_trans (Nat.le_mul_of_pos_left _ (Nat.succ_pos p)) hrange
    have hbound : k < count := lt_of_lt_of_le Nat.lt_two_pow_self hk
    generalize hd : count - k = d
    induction d generalizing k p with
    | zero => omega
    | succ d ih =>
      have hp : p + 1 ≤ count / 2 ^ k := (Nat.le_div_iff_mul_le (Nat.two_pow_pos k)).mpr hrange
      by_cases hlastOne : p = count / 2 ^ k - 1
      · rw [hlastOne]
        exact hlast k hk
      · have hhalf : count / 2 ^ (k + 1) = count / 2 ^ k / 2 := by rw [pow_succ, Nat.div_div_eq_div_mul]
        have hparent : p / 2 + 1 ≤ count / 2 ^ (k + 1) := by omega
        have hrange' : (p / 2 + 1) * 2 ^ (k + 1) ≤ count := (Nat.le_div_iff_mul_le (Nat.two_pow_pos _)).mp hparent
        have hk' : 2 ^ (k + 1) ≤ count := le_trans (Nat.le_mul_of_pos_left _ (Nat.succ_pos _)) hrange'
        have hbound' : k + 1 < count := lt_of_lt_of_le Nat.lt_two_pow_self hk'
        obtain ⟨hleft, hright⟩ := h.children k (p / 2) (ih (k + 1) (p / 2) hrange' hk' hbound' (by omega))
        obtain heven | hodd := Nat.mod_two_eq_zero_or_one p
        · rwa [show p = 2 * (p / 2) by omega]
        · rwa [show p = 2 * (p / 2) + 1 by omega]
  · intro hfull
    refine ext_getElem? fun k => ?_
    rw [getElem?_mmrLayers hcount, getElem?_map]
    by_cases hk : 2 ^ k ≤ count
    · have hpos : 0 < count / 2 ^ k := Nat.div_pos hk (Nat.two_pow_pos k)
      have hrange : (count / 2 ^ k - 1 + 1) * 2 ^ k ≤ count := by
        rw [Nat.sub_add_cancel hpos]
        exact Nat.div_mul_le_self count (2 ^ k)
      obtain ⟨layer, hlayer, hlt⟩ := lt_length_of_unionAt (hfull k _ hrange)
      obtain ⟨p, hp, -, hle⟩ := h.layer_length hlayer
      have hp' : p + 1 ≤ count / 2 ^ k := (Nat.le_div_iff_mul_le (Nat.two_pow_pos k)).mpr hle
      rw [if_pos hk, hlayer, Option.map_some]
      congr 1
      omega
    · rw [if_neg hk]
      cases hlayer : unions[k]? with
      | none => rfl
      | some layer =>
        obtain ⟨p, -, -, hle⟩ := h.layer_length hlayer
        exact absurd (le_trans (Nat.le_mul_of_pos_left _ (Nat.succ_pos p)) hle) hk

theorem mountain_eq_filter (h n : ℕ) : 
    (((mmrLayers n).zipIdx h).filter fun e => e.1 % 2 = 1).map (fun e => (e.2, node e.2 (e.1 - 1))) =
      mountain UnknownReceipt.union UnknownReceipt.keccak h n := by
  induction h, n using mountain_induction with
  | zero h =>
    rw [mmrLayers_of_le_one (Nat.zero_le 1), mountain_zero]
    rfl
  | even h n hpos ih =>
    rw [mmrLayers_two_mul hpos, mountain_even, zipIdx_cons, filter_cons_of_neg (by simp), ih]
  | odd h n ih =>
    rw [mountain_odd]
    obtain rfl | hpos := Nat.eq_zero_or_pos n
    · rw [mountain_zero, mmrLayers_of_le_one (by omega)]
      rfl
    · rw [mmrLayers_two_mul_add_one hpos, zipIdx_cons, filter_cons_of_pos (by simp), map_cons, ih]
      rfl

/-- The peaks of all batches, from the largest. -/
def peaksOf (count : ℕ) : List UnknownReceipt := ((mountain UnknownReceipt.union UnknownReceipt.keccak 0 count).map Prod.snd).reverse

theorem mapM_okOr {α β : Type} {f : α → Except JobError β} {g : α → β} {l : List α} (h : ∀ a ∈ l, f a = .ok (g a)) :
    l.mapM f = .ok (l.map g) := by
  induction l with
  | nil => rfl
  | cons a l ih =>
    obtain ⟨hhead, htail⟩ := forall_mem_cons.mp h
    rw [mapM_cons]
    exact bind_ok_iff.mpr ⟨_, hhead, bind_ok_iff.mpr ⟨_, ih htail, rfl⟩⟩

theorem Filling.layerPeaks (h : Filling count unions) (hfull : Full count unions)
    (hunions : a.unions = unions) (hlayers : a.requiredKeccakLayers = mmrLayers count) :
    (mmrPeaks a.requiredKeccakLayers).mapM a.layerPeak = .ok (peaksOf count) := by
  have hpeaks : mmrPeaks a.requiredKeccakLayers = ((mountain UnknownReceipt.union UnknownReceipt.keccak 0 count).map Prod.fst).reverse := by
    rw [hlayers, mmrPeaks, ← mountain_eq_filter, map_map, filter_reverse, map_reverse]
    rfl
  have hpeak (k : ℕ) (hk : k ∈ mmrPeaks a.requiredKeccakLayers) : a.layerPeak k = .ok (node k (count / 2 ^ k - 1)) := by
    rw [hpeaks, mem_reverse, mem_map] at hk
    obtain ⟨⟨k, d⟩, hmem, rfl⟩ := hk
    obtain ⟨-, hodd, -⟩ := mem_mountain_iff.mp hmem
    rw [Nat.sub_zero] at hodd
    dsimp only at hodd ⊢
    have hpos : 0 < count / 2 ^ k := by
      by_contra hzero
      rw [Nat.eq_zero_of_not_pos hzero] at hodd
      cases hodd
    have hrange : (count / 2 ^ k - 1 + 1) * 2 ^ k ≤ count := by
      rw [Nat.sub_add_cancel hpos]
      exact Nat.div_mul_le_self count (2 ^ k)
    obtain ⟨layer, hlayer, hlt⟩ := lt_length_of_unionAt (hfull k _ hrange)
    obtain ⟨p, hp, hunion, hle⟩ := h.layer_length hlayer
    have hp' : p + 1 ≤ count / 2 ^ k := (Nat.le_div_iff_mul_le (Nat.two_pow_pos k)).mpr hle
    have hslot : layer.getLast? = some (some (node k p)) := by
      rw [unionAt, hlayer, Option.bind_some] at hunion
      rw [getLast?_eq_getElem?, show layer.length - 1 = p by omega]
      exact Option.join_eq_some_iff.mp hunion
    have heq : count / 2 ^ k - 1 = p := by omega
    rw [JobActor.layerPeak, hunions]
    refine bind_ok_iff.mpr ⟨layer, by rw [hlayer]; rfl, bind_ok_iff.mpr ⟨some (node k p), by rw [hslot]; rfl, ?_⟩⟩
    rw [heq]
    rfl
  rw [mapM_okOr hpeak, hpeaks, peaksOf]
  congr 1
  rw [map_reverse, map_map]
  congr 1
  refine map_congr_left fun e he => ?_
  obtain ⟨k, d⟩ := e
  obtain ⟨-, -, hd⟩ := mem_mountain_iff.mp he
  rw [Nat.sub_zero] at hd
  exact hd.symm

end VerifiableCompute.ProofJob
