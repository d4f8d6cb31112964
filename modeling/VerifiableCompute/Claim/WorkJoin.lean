import VerifiableCompute.Lib.Checked
import VerifiableCompute.Claim.Types

/-! Joining work. The ranges of nonces have to be contiguous, and the values are added with the plain operator, which
wraps around in builds without overflow checks. -/

namespace VerifiableCompute.Claim

open Lib Binfmt List

/-- A join can return an error, or it can panic. -/
inductive JoinFailure
  | nonceRangesNotContiguous (ab : Work × Work)
  | panicked
  deriving DecidableEq

/-- The plain operator on 64-bit values. -/
def addValues (overflowChecks : Bool) (x y : BitVec 64) : Except JoinFailure (BitVec 64) :=
  if overflowChecks then checkedAdd .panicked x y else .ok (x + y)

namespace Work

/-- Whether the second range starts where the first ends. -/
def contiguous (self other : Work) : Bool :=
  match checkedAdd () self.nonceMax.toU256 1 with
  | .ok max => max = other.nonceMin.toU256
  | .error _ => false

def join (overflowChecks : Bool) (self other : Work) : Except JoinFailure Work :=
  if self.contiguous other then do
    let value ← addValues overflowChecks self.value other.value
    return ⟨self.nonceMin, other.nonceMax, value⟩
  else .error (.nonceRangesNotContiguous (self, other))

variable {overflowChecks : Bool} {self other w : Work}

theorem contiguous_iff : self.contiguous other = true ↔ self.nonceMax.toU256.toNat + 1 = other.nonceMin.toU256.toNat := by
  have hone : (1 : BitVec 256).toNat = 1 := rfl
  have hmax := other.nonceMin.toU256.isLt
  unfold contiguous checkedAdd
  rw [hone]
  split_ifs with hlt
  · have hsum : (self.nonceMax.toU256 + 1).toNat = self.nonceMax.toU256.toNat + 1 := BitVec.toNat_add_of_lt hlt
    rw [decide_eq_true_iff, ← BitVec.toNat_inj, hsum]
  · exact iff_of_false not_false (by omega)

/-- The sum of two values fits, or nobody looks. -/
def Addable (overflowChecks : Bool) (x y : BitVec 64) : Prop := overflowChecks = true → x.toNat + y.toNat < 2 ^ 64

theorem addValues_ok_iff {x y z : BitVec 64} : addValues overflowChecks x y = .ok z ↔ Addable overflowChecks x y ∧ x + y = z := by
  unfold addValues Addable checkedAdd
  cases overflowChecks with
  | false => simp
  | true =>
    rw [if_pos rfl, forall_prop_of_true rfl]
    split_ifs with hlt
    · rw [Except.ok.injEq, and_iff_right hlt]
    · exact iff_of_false (fun h => by cases h) (fun h => hlt h.1)

theorem join_ok_iff : self.join overflowChecks other = .ok w ↔
    self.nonceMax.toU256.toNat + 1 = other.nonceMin.toU256.toNat ∧ Addable overflowChecks self.value other.value ∧
      w = ⟨self.nonceMin, other.nonceMax, self.value + other.value⟩ := by
  rw [← contiguous_iff]
  unfold join
  split_ifs with hcontiguous
  · simp only [bind_ok_iff, addValues_ok_iff, hcontiguous, true_and]
    constructor
    · rintro ⟨value, ⟨hadd, rfl⟩, hw⟩
      exact ⟨hadd, (Except.ok.inj hw).symm⟩
    · rintro ⟨hadd, rfl⟩
      exact ⟨_, ⟨hadd, rfl⟩, rfl⟩
  · simp [hcontiguous]

end Work

def joinAll (overflowChecks : Bool) (t : Bracketing Work) : Except JoinFailure Work := t.run (Work.join overflowChecks)

theorem toOption_eq_some_iff {ε α : Type} {x : Except ε α} {a : α} : x.toOption = some a ↔ x = .ok a := by
  cases x <;> simp [Except.toOption]

/-- The sums of three values fit together whichever is taken first. -/
theorem Work.addable_assoc {overflowChecks : Bool} (x y z : BitVec 64) :
    Addable overflowChecks x y ∧ Addable overflowChecks (x + y) z ↔ Addable overflowChecks y z ∧ Addable overflowChecks x (y + z) := by
  unfold Addable
  cases overflowChecks with
  | false => simp
  | true =>
    have hsum (a b : BitVec 64) : (a + b).toNat = (a.toNat + b.toNat) % 2 ^ 64 := BitVec.toNat_add a b
    have hx := x.isLt
    have hz := z.isLt
    simp only [forall_const, hsum]
    omega

theorem join_assoc (overflowChecks : Bool) : Bracketing.PartialAssoc fun a b => (Work.join overflowChecks a b).toOption := by
  intro a b c
  ext w
  simp only [Option.bind_eq_some_iff, toOption_eq_some_iff, Work.join_ok_iff]
  constructor
  · rintro ⟨u, ⟨hab, hadd, rfl⟩, hbc, hadd', rfl⟩
    obtain ⟨hyz, hxyz⟩ := (Work.addable_assoc _ _ _).mp ⟨hadd, hadd'⟩
    exact ⟨_, ⟨hbc, hyz, rfl⟩, hab, hxyz, by rw [BitVec.add_assoc]⟩
  · rintro ⟨v, ⟨hbc, hadd, rfl⟩, hab, hadd', rfl⟩
    obtain ⟨hxy, hxyz⟩ := (Work.addable_assoc _ _ _).mpr ⟨hadd, hadd'⟩
    exact ⟨_, ⟨hab, hxy, rfl⟩, hbc, hxyz, by rw [BitVec.add_assoc]⟩

theorem joinAll_eq_of_leaves_eq {overflowChecks : Bool} {t t' : Bracketing Work} (h : t'.leaves = t.leaves) :
    (joinAll overflowChecks t').toOption = (joinAll overflowChecks t).toOption := by
  rw [joinAll, joinAll, Bracketing.toOption_run, Bracketing.toOption_run]
  exact Bracketing.run_eq_of_leaves_eq (join_assoc overflowChecks) h

def Work.Single (w : Work) : Prop := w.nonceMin = w.nonceMax

/-- Each range starts where the one before it ends. -/
def Consecutive (leaves : List Work) : Prop := leaves.IsChain fun a b => a.nonceMax.toU256.toNat + 1 = b.nonceMin.toU256.toNat

def totalValue (leaves : List Work) : ℕ := (leaves.map fun w => w.value.toNat).sum

theorem totalValue_append (l r : List Work) : totalValue (l ++ r) = totalValue l + totalValue r := by
  rw [totalValue, map_append, sum_append]
  rfl

/-- The work is on the nonces of the leaves, and on as many nonces as there are leaves. -/
structure Covers (leaves : List Work) (w : Work) : Prop where
  consecutive : ∀ i work, leaves[i]? = some work → work.nonceMin.toU256.toNat = w.nonceMin.toU256.toNat + i
  count : w.nonceMax.toU256.toNat - w.nonceMin.toU256.toNat + 1 = leaves.length
  nonces : ∀ n : PovwNonce, w.nonceMin.toU256 ≤ n.toU256 ∧ n.toU256 ≤ w.nonceMax.toU256 ↔ ∃ work ∈ leaves, work.nonceMin = n

/-- The leaves are numbered from the first nonce to the last. -/
structure Numbered (leaves : List Work) (w : Work) : Prop where
  leaf : ∀ i work, leaves[i]? = some work → work.Single ∧ work.nonceMin.toU256.toNat = w.nonceMin.toU256.toNat + i
  last : w.nonceMin.toU256.toNat + leaves.length = w.nonceMax.toU256.toNat + 1

namespace Numbered

theorem single {w : Work} (h : w.Single) : Numbered [w] w where
  leaf i work hi := by
    obtain ⟨rfl, rfl⟩ : i = 0 ∧ work = w := by simpa [getElem?_singleton, eq_comm] using hi
    exact ⟨h, rfl⟩
  last := by rw [h]; rfl

theorem append {l r : List Work} {u v : Work} (hl : Numbered l u) (hr : Numbered r v)
    (hnext : u.nonceMax.toU256.toNat + 1 = v.nonceMin.toU256.toNat) (value : BitVec 64) :
    Numbered (l ++ r) ⟨u.nonceMin, v.nonceMax, value⟩ where
  leaf i work hi := by
    obtain hlt | hle := Nat.lt_or_ge i l.length
    · rw [getElem?_append_left hlt] at hi
      exact hl.leaf i work hi
    · rw [getElem?_append_right hle] at hi
      obtain ⟨hsingle, hwork⟩ := hr.leaf _ work hi
      have hlast := hl.last
      exact ⟨hsingle, by rw [hwork]; dsimp only; omega⟩
  last := by
    have hlast := hl.last
    have hlast' := hr.last
    rw [length_append]
    dsimp only
    omega

variable {leaves : List Work} {w : Work}

theorem covers (h : Numbered leaves w) (hne : leaves ≠ []) : Covers leaves w where
  consecutive i work hi := (h.leaf i work hi).2
  count := by
    have hlast := h.last
    have hlength := length_pos_iff.mpr hne
    omega
  nonces n := by
    have hlast := h.last
    rw [BitVec.le_def, BitVec.le_def]
    constructor
    · rintro ⟨hmin, hmax⟩
      obtain ⟨i, hi⟩ := Nat.exists_eq_add_of_le hmin
      have hlt : i < leaves.length := by omega
      refine ⟨leaves[i], getElem_mem hlt, PovwNonce.toU256_injective (BitVec.eq_of_toNat_eq ?_)⟩
      rw [(h.leaf i leaves[i] (List.getElem?_eq_getElem hlt)).2, hi]
    · rintro ⟨work, hmem, rfl⟩
      obtain ⟨i, hlt, rfl⟩ := mem_iff_getElem.mp hmem
      have hwork := (h.leaf i leaves[i] (List.getElem?_eq_getElem hlt)).2
      omega

theorem isConsecutive (h : Numbered leaves w) : Consecutive leaves := by
  refine isChain_iff_getElem.mpr fun i hi => ?_
  obtain ⟨hsingle, hthis⟩ := h.leaf i leaves[i] (List.getElem?_eq_getElem (by omega))
  obtain ⟨-, hnext⟩ := h.leaf (i + 1) leaves[i + 1] (List.getElem?_eq_getElem hi)
  rw [← hsingle, hthis, hnext, Nat.add_assoc]

end Numbered

variable {overflowChecks : Bool} {t : Bracketing Work} {w : Work}

theorem joinAll_join_ok {l r : Bracketing Work} : joinAll overflowChecks (.join l r) = .ok w ↔
    ∃ u v, joinAll overflowChecks l = .ok u ∧ joinAll overflowChecks r = .ok v ∧ u.join overflowChecks v = .ok w := by
  rw [joinAll, Bracketing.run, bind_ok_iff]
  simp only [bind_ok_iff, joinAll]
  constructor
  · rintro ⟨u, hu, v, hv, hw⟩
    exact ⟨u, v, hu, hv, hw⟩
  · rintro ⟨u, v, hu, hv, hw⟩
    exact ⟨u, hu, v, hv, hw⟩

theorem joinAll_numbered (hsingle : ∀ work ∈ t.leaves, work.Single) (h : joinAll overflowChecks t = .ok w) : Numbered t.leaves w := by
  induction t generalizing w with
  | leaf work =>
    cases h
    exact .single (hsingle work mem_cons_self)
  | join l r ihl ihr =>
    obtain ⟨u, v, hu, hv, hw⟩ := joinAll_join_ok.mp h
    obtain ⟨hnext, -, rfl⟩ := Work.join_ok_iff.mp hw
    have hl := ihl (fun work hmem => hsingle work (mem_append_left _ hmem)) hu
    have hr := ihr (fun work hmem => hsingle work (mem_append_right _ hmem)) hv
    exact hl.append hr hnext _

/-- The value is the sum of the values modulo `2 ^ 64`, and the sum itself where overflows are checked. -/
theorem joinAll_value (h : joinAll overflowChecks t = .ok w) :
    w.value.toNat = totalValue t.leaves % 2 ^ 64 ∧ (overflowChecks = true → w.value.toNat = totalValue t.leaves) := by
  induction t generalizing w with
  | leaf work =>
    cases h
    have hsum : totalValue (Bracketing.leaf work).leaves = work.value.toNat := by simp [totalValue, Bracketing.leaves]
    rw [hsum]
    exact ⟨(Nat.mod_eq_of_lt work.value.isLt).symm, fun _ => rfl⟩
  | join l r ihl ihr =>
    obtain ⟨u, v, hu, hv, hw⟩ := joinAll_join_ok.mp h
    obtain ⟨-, hadd, rfl⟩ := Work.join_ok_iff.mp hw
    obtain ⟨hleft, hleftExact⟩ := ihl hu
    obtain ⟨hright, hrightExact⟩ := ihr hv
    rw [Bracketing.leaves, totalValue_append]
    refine ⟨?_, fun hchecks => ?_⟩
    · rw [BitVec.toNat_add, hleft, hright, ← Nat.add_mod]
    · rw [← hleftExact hchecks, ← hrightExact hchecks]
      exact BitVec.toNat_add_of_lt (hadd hchecks)

/-- Without overflow checks nothing but the nonces can stop a join. -/
theorem joinAll_of_consecutive (hsingle : ∀ work ∈ t.leaves, work.Single) (h : Consecutive t.leaves) : ∃ w, joinAll false t = .ok w := by
  induction t with
  | leaf work => exact ⟨work, rfl⟩
  | join l r ihl ihr =>
    obtain ⟨hchainl, hchainr, hboundary⟩ := isChain_append.mp h
    have hsinglel : ∀ work ∈ l.leaves, work.Single := fun work hmem => hsingle work (mem_append_left _ hmem)
    have hsingler : ∀ work ∈ r.leaves, work.Single := fun work hmem => hsingle work (mem_append_right _ hmem)
    obtain ⟨u, hu⟩ := ihl hsinglel hchainl
    obtain ⟨v, hv⟩ := ihr hsingler hchainr
    have hl := joinAll_numbered hsinglel hu
    have hr := joinAll_numbered hsingler hv
    have hlengthl := length_pos_iff.mpr l.leaves_ne_nil
    have hlengthr := length_pos_iff.mpr r.leaves_ne_nil
    have hlast : l.leaves[l.leaves.length - 1]? = some l.leaves[l.leaves.length - 1] := List.getElem?_eq_getElem (by omega)
    have hfirst : r.leaves[0]? = some r.leaves[0] := List.getElem?_eq_getElem hlengthr
    obtain ⟨hsingleLast, hnonceLast⟩ := hl.leaf _ _ hlast
    obtain ⟨-, hnonceFirst⟩ := hr.leaf _ _ hfirst
    have hmeet := hboundary _ (by rw [getLast?_eq_getElem?]; exact hlast) _ (by rw [head?_eq_getElem?]; exact hfirst)
    have hend := hl.last
    have hnext : u.nonceMax.toU256.toNat + 1 = v.nonceMin.toU256.toNat := by
      rw [← hsingleLast] at hmeet
      omega
    exact ⟨_, joinAll_join_ok.mpr ⟨u, v, hu, hv, Work.join_ok_iff.mpr ⟨hnext, fun hchecks => absurd hchecks Bool.false_ne_true, rfl⟩⟩⟩

/-- What joins promise: the brackets do not matter, and where all joins succeed the nonces are those of the leaves
and the value is the sum. -/
structure JoinLaw (overflowChecks : Bool) (t : Bracketing Work) : Prop where
  brackets : ∀ t' : Bracketing Work, t'.leaves = t.leaves → (joinAll overflowChecks t').toOption = (joinAll overflowChecks t).toOption
  covers : ∀ w, joinAll overflowChecks t = .ok w → Consecutive t.leaves ∧ Covers t.leaves w
  value : ∀ w, joinAll overflowChecks t = .ok w → w.value.toNat = totalValue t.leaves

/-- The only thing that can go wrong is a sum of values that wraps around. -/
theorem joinLaw_iff (t : Bracketing Work) (hsingle : ∀ work ∈ t.leaves, work.Single) :
    JoinLaw overflowChecks t ↔ overflowChecks = true ∨ totalValue t.leaves < 2 ^ 64 ∨ ¬Consecutive t.leaves := by
  constructor
  · intro hlaw
    by_contra hnone
    obtain ⟨hchecks, hrest⟩ := not_or.mp hnone
    obtain ⟨hlarge, hconsecutive⟩ := not_or.mp hrest
    obtain rfl := Bool.eq_false_iff.mpr hchecks
    obtain ⟨w, hw⟩ := joinAll_of_consecutive hsingle (not_not.mp hconsecutive)
    exact hlarge (hlaw.value w hw ▸ w.value.isLt)
  · intro hcases
    refine ⟨fun t' => joinAll_eq_of_leaves_eq, fun w hw => ?_, fun w hw => ?_⟩
    · have hnumbered := joinAll_numbered hsingle hw
      exact ⟨hnumbered.isConsecutive, hnumbered.covers t.leaves_ne_nil⟩
    · obtain ⟨hmod, hexact⟩ := joinAll_value hw
      obtain hchecks | hsmall | hgap := hcases
      · exact hexact hchecks
      · rw [hmod, Nat.mod_eq_of_lt hsmall]
      · exact absurd (joinAll_numbered hsingle hw).isConsecutive hgap

def segmentWork (segment : BitVec 32) (value : BitVec 64) : Work := ⟨⟨7, 1, segment⟩, ⟨7, 1, segment⟩, value⟩

theorem joinLaw_iff_sample : JoinLaw true (.join (.leaf (segmentWork 0 5)) (.leaf (segmentWork 1 9))) ↔
    true = true ∨ totalValue [segmentWork 0 5, segmentWork 1 9] < 2 ^ 64 ∨ ¬Consecutive [segmentWork 0 5, segmentWork 1 9] := by
  refine joinLaw_iff (.join (.leaf (segmentWork 0 5)) (.leaf (segmentWork 1 9))) fun work hmem => ?_
  obtain rfl | rfl : work = segmentWork 0 5 ∨ work = segmentWork 1 9 := by simpa [Bracketing.leaves] using hmem
  · rfl
  · rfl

/-- Two halves of `2 ^ 64` are joined to work of value zero. -/
theorem joinLaw_wraps : joinAll false (.join (.leaf (segmentWork 0 (1 <<< 63))) (.leaf (segmentWork 1 (1 <<< 63)))) =
      .ok ⟨⟨7, 1, 0⟩, ⟨7, 1, 1⟩, 0⟩ ∧ totalValue [segmentWork 0 (1 <<< 63), segmentWork 1 (1 <<< 63)] = 2 ^ 64 ∧
    ¬JoinLaw false (.join (.leaf (segmentWork 0 (1 <<< 63))) (.leaf (segmentWork 1 (1 <<< 63)))) := by
  have hjoined : joinAll false (.join (.leaf (segmentWork 0 (1 <<< 63))) (.leaf (segmentWork 1 (1 <<< 63)))) =
      .ok ⟨⟨7, 1, 0⟩, ⟨7, 1, 1⟩, 0⟩ := by decide
  have htotal : totalValue [segmentWork 0 (1 <<< 63), segmentWork 1 (1 <<< 63)] = 2 ^ 64 := by decide
  exact ⟨hjoined, htotal, fun hlaw => absurd ((hlaw.value _ hjoined).trans htotal) (by decide)⟩

end VerifiableCompute.Claim
