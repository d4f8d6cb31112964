import VerifiableCompute.Claim.Types
import VerifiableCompute.Lib.Checked

/-! Prunings of a claim, and the fields that a pruning leaves populated. A field is
named by the path of steps that leads to it. -/

namespace VerifiableCompute.Claim

open Lib Binfmt

inductive Step
  | claim | work | pre | post | input | output | journal | assumptions
  | index (i : ℕ)

/-- `Prunes S c p`: some of the fields of `c` are replaced by their digests in `p`.
`populated p path`: the field of `p` that `path` names is there and holds a value. -/
class Prunable (T : Type) extends Merge T where
  Prunes : Sha256 → T → T → Prop
  populated : T → List Step → Prop

export Prunable (Prunes populated)

variable {T C : Type} {S : Sha256}

instance : Prunable SystemState where
  Prunes _ c p := p = c
  populated _ _ := False

instance : Prunable Assumption where
  Prunes _ c p := p = c
  populated _ _ := False

instance : Prunable Work where
  Prunes _ c p := p = c
  populated _ _ := False

instance : Prunable (List Byte) where
  Prunes _ c p := p = c
  populated _ _ := False

instance : Prunable Input where
  Prunes _ c p := p = c
  populated _ _ := False

instance [Prunable T] : Prunable (MaybePruned T) where
  Prunes S c p := p = .pruned (digest S c) ∨ ∃ v w, c = .value v ∧ p = .value w ∧ Prunes S v w
  populated p path := ∃ v, p = .value v ∧ (path = [] ∨ populated v path)

instance [Prunable T] : Prunable (Option T) where
  Prunes S c p := (c = none ∧ p = none) ∨ ∃ v w, c = some v ∧ p = some w ∧ Prunes S v w
  populated p path := ∃ v, p = some v ∧ populated v path

/-- A field of an element of a list. -/
def populatedAt [Prunable T] (l : List T) (i : ℕ) (path : List Step) : Prop := ∃ a, l[i]? = some a ∧ populated a path

instance : Prunable Assumptions where
  Prunes S c p := List.Forall₂ (Prunes S) c.list p.list
  populated p
    | .index i :: path => populatedAt p.list i path
    | _ => False

instance : Prunable Output where
  Prunes S c p := Prunes S c.journal p.journal ∧ Prunes S c.assumptions p.assumptions
  populated p
    | .journal :: path => populated p.journal path
    | .assumptions :: path => populated p.assumptions path
    | _ => False

instance : Prunable ReceiptClaim where
  Prunes S c p := Prunes S c.pre p.pre ∧ Prunes S c.post p.post ∧ p.exitCode = c.exitCode ∧
    Prunes S c.input p.input ∧ Prunes S c.output p.output
  populated p
    | .pre :: path => populated p.pre path
    | .post :: path => populated p.post path
    | .input :: path => populated p.input path
    | .output :: path => populated p.output path
    | _ => False

instance [Prunable C] : Prunable (WorkClaim C) where
  Prunes S c p := Prunes S c.claim p.claim ∧ Prunes S c.work p.work
  populated p
    | .claim :: path => populated p.claim path
    | .work :: path => populated p.work path
    | _ => False

/-- `r` is the union of the prunings `p` and `q` of `c`. -/
structure Joined [Prunable T] (S : Sha256) (c p q r : T) : Prop where
  merge_eq : merge S p q = .ok r
  prunes : Prunes S c r
  populated_iff : ∀ path, populated r path ↔ populated p path ∨ populated q path

/-- What a type's merge has to keep, for the merges of the types around it to keep it. -/
structure Lawful (T : Type) [Prunable T] (S : Sha256) : Prop where
  /-- A merge is digest equal to both of its arguments. -/
  digest_of_merge : ∀ {p q r : T}, merge S p q = .ok r → digest S r = digest S p ∧ digest S r = digest S q
  digest_of_prunes : ∀ {c p : T}, Prunes S c p → digest S p = digest S c
  joined : ∀ {c p q : T}, Prunes S c p → Prunes S c q → ∃ r, Joined S c p q r
  /-- A pruning is known from its populated fields. -/
  unique : ∀ {c p q : T}, Prunes S c p → Prunes S c q → (∀ path, populated p path ↔ populated q path) → p = q

theorem mergeLeaf_eq_ok [Digestible T] [DecidableEq T] {p q r : T} : mergeLeaf S p q = .ok r ↔ p = q ∧ r = p := by
  unfold mergeLeaf
  by_cases h : p = q
  · rw [if_neg (not_not.mpr h)]
    simp [h, eq_comm]
  · rw [if_pos h]
    simp [h]

theorem lawful_leaf [Prunable T] [DecidableEq T] (hmerge : ∀ p q : T, merge S p q = mergeLeaf S p q)
    (hprunes : ∀ c p : T, Prunes S c p ↔ p = c) : Lawful T S where
  digest_of_merge {p q r} h := by
    rw [hmerge, mergeLeaf_eq_ok] at h
    obtain ⟨rfl, rfl⟩ := h
    exact ⟨rfl, rfl⟩
  digest_of_prunes {c p} h := by
    rw [(hprunes c p).mp h]
  joined {c p q} hp hq := by
    obtain rfl := (hprunes c p).mp hp
    obtain rfl := (hprunes p q).mp hq
    exact ⟨q, by rw [hmerge, mergeLeaf_eq_ok]; exact ⟨rfl, rfl⟩, hp, fun path => (or_self_iff).symm⟩
  unique {c p q} hp hq _ := by
    rw [(hprunes c p).mp hp, (hprunes c q).mp hq]

/-- The field itself is the empty path, so the value in it must not answer to that path. -/
theorem lawful_maybePruned [Prunable T] (h : Lawful T S) (hnil : ∀ v : T, ¬ populated v []) :
    Lawful (MaybePruned T) S where
  digest_of_merge {p q r} hm := by
    have hcheck {a : MaybePruned T} {u : MaybePruned T} (heq : (do
        (if digest S p ≠ digest S q then .error (inequality S p q) else .ok () : Except MergeInequalityError Unit)
        return u) = .ok a) : digest S p = digest S q ∧ a = u := by
      obtain ⟨⟨⟩, hc, hu⟩ := bind_ok_iff.mp heq
      cases hu
      by_cases hd : digest S p = digest S q
      · exact ⟨hd, rfl⟩
      · rw [if_pos hd] at hc
        cases hc
    cases p with
    | value left =>
      cases q with
      | value right =>
        obtain ⟨v, hv, hr⟩ := bind_ok_iff.mp hm
        cases hr
        exact h.digest_of_merge hv
      | pruned d =>
        obtain ⟨hd, rfl⟩ := hcheck hm
        exact ⟨rfl, hd⟩
    | pruned d =>
      cases q with
      | value right =>
        obtain ⟨hd, rfl⟩ := hcheck hm
        exact ⟨hd.symm, rfl⟩
      | pruned d' =>
        obtain ⟨hd, rfl⟩ := hcheck hm
        exact ⟨rfl, hd⟩
  digest_of_prunes {c p} hp := by
    rcases hp with rfl | ⟨v, w, rfl, rfl, hw⟩
    · rfl
    · exact h.digest_of_prunes hw
  joined {c p q} hp hq := by
    rcases hp with rfl | ⟨v, w, rfl, rfl, hw⟩
    · rcases hq with rfl | ⟨v, w, rfl, rfl, hw⟩
      · refine ⟨.pruned (digest S c), ?_, .inl rfl, fun path => (or_self_iff).symm⟩
        simp [merge]
      · refine ⟨.value w, ?_, .inr ⟨v, w, rfl, rfl, hw⟩, fun path => ?_⟩
        · have hd : digest S v = digest S w := (h.digest_of_prunes hw).symm
          simp [merge, digest, hd]
        · simp [populated]
    · rcases hq with rfl | ⟨v', w', heq, rfl, hw'⟩
      · refine ⟨.value w, ?_, .inr ⟨v, w, rfl, rfl, hw⟩, fun path => ?_⟩
        · have hd : digest S w = digest S v := h.digest_of_prunes hw
          simp [merge, digest, hd]
        · simp [populated]
      · cases heq
        obtain ⟨r, hr⟩ := h.joined hw hw'
        refine ⟨.value r, ?_, .inr ⟨v, r, rfl, rfl, hr.prunes⟩, fun path => ?_⟩
        · simp [merge, hr.merge_eq]
        · simp [populated, hr.populated_iff]
          tauto
  unique {c p q} hp hq hiff := by
    have hempty := hiff []
    rcases hp with rfl | ⟨v, w, rfl, rfl, hw⟩
    · rcases hq with rfl | ⟨v, w, rfl, rfl, hw⟩
      · rfl
      · simp [populated] at hempty
    · rcases hq with rfl | ⟨v', w', heq, rfl, hw'⟩
      · simp [populated] at hempty
      · cases heq
        congr 1
        apply h.unique hw hw'
        intro path
        rcases path with _ | ⟨step, path⟩
        · exact ⟨fun hw => absurd hw (hnil w), fun hw' => absurd hw' (hnil w')⟩
        · simpa [populated] using hiff (step :: path)

theorem lawful_option [Prunable T] (h : Lawful T S) : Lawful (Option T) S where
  digest_of_merge {p q r} hm := by
    rcases p with _ | left <;> rcases q with _ | right
    · cases hm
      exact ⟨rfl, rfl⟩
    · cases hm
    · cases hm
    · obtain ⟨v, hv, hr⟩ := bind_ok_iff.mp hm
      cases hr
      exact h.digest_of_merge hv
  digest_of_prunes {c p} hp := by
    rcases hp with ⟨rfl, rfl⟩ | ⟨v, w, rfl, rfl, hw⟩
    · rfl
    · exact h.digest_of_prunes hw
  joined {c p q} hp hq := by
    rcases hp with ⟨rfl, rfl⟩ | ⟨v, w, rfl, rfl, hw⟩
    · rcases hq with ⟨-, rfl⟩ | ⟨v, w, heq, rfl, hw⟩
      · exact ⟨none, rfl, .inl ⟨rfl, rfl⟩, fun path => (or_self_iff).symm⟩
      · cases heq
    · rcases hq with ⟨heq, -⟩ | ⟨v', w', heq, rfl, hw'⟩
      · cases heq
      · cases heq
        obtain ⟨r, hr⟩ := h.joined hw hw'
        refine ⟨some r, ?_, .inr ⟨v, r, rfl, rfl, hr.prunes⟩, fun path => ?_⟩
        · simp [merge, hr.merge_eq]
        · simp [populated, hr.populated_iff]
  unique {c p q} hp hq hiff := by
    rcases hp with ⟨rfl, rfl⟩ | ⟨v, w, rfl, rfl, hw⟩
    · rcases hq with ⟨-, rfl⟩ | ⟨v, w, heq, rfl, hw⟩
      · rfl
      · cases heq
    · rcases hq with ⟨heq, -⟩ | ⟨v', w', heq, rfl, hw'⟩
      · cases heq
      · cases heq
        congr 1
        apply h.unique hw hw'
        intro path
        simpa [populated] using hiff path

theorem mapM_cons_eq_ok {α β : Type} {f : α → Except MergeInequalityError β} {a : α} {as : List α} {bs : List β} :
    (a :: as).mapM f = .ok bs ↔ ∃ b, f a = .ok b ∧ ∃ cs, as.mapM f = .ok cs ∧ bs = b :: cs := by
  rw [List.mapM_cons, bind_ok_iff]
  constructor
  · rintro ⟨b, hb, h⟩
    obtain ⟨cs, hcs, h⟩ := bind_ok_iff.mp h
    cases h
    exact ⟨b, hb, cs, hcs, rfl⟩
  · rintro ⟨b, hb, cs, hcs, rfl⟩
    exact ⟨b, hb, bind_ok_iff.mpr ⟨cs, hcs, rfl⟩⟩

section Lists

variable [Prunable T] (h : Lawful T S)
include h

theorem digests_of_merge {ps qs rs : List T} (hlength : ps.length = qs.length)
    (hm : ((ps.zip qs).mapM fun p => merge S p.1 p.2) = .ok rs) :
    rs.map (digest S) = ps.map (digest S) ∧ rs.map (digest S) = qs.map (digest S) := by
  induction ps generalizing qs rs with
  | nil =>
    obtain rfl : qs = [] := List.length_eq_zero_iff.mp hlength.symm
    cases hm
    exact ⟨rfl, rfl⟩
  | cons p ps ih =>
    rcases qs with _ | ⟨q, qs⟩
    · cases hlength
    · obtain ⟨r, hr, rs, hrs, rfl⟩ := mapM_cons_eq_ok.mp hm
      obtain ⟨hp, hq⟩ := h.digest_of_merge hr
      obtain ⟨hps, hqs⟩ := ih (Nat.succ.inj hlength) hrs
      rw [List.map_cons, List.map_cons, List.map_cons, ← hp, ← hq, ← hps, ← hqs]
      exact ⟨rfl, rfl⟩

theorem digests_of_prunes {cs ps : List T} (hp : List.Forall₂ (Prunes S) cs ps) :
    ps.map (digest S) = cs.map (digest S) := by
  induction hp with
  | nil => rfl
  | cons hp _ ih => rw [List.map_cons, List.map_cons, h.digest_of_prunes hp, ih]

variable {cs ps qs : List T} (hp : List.Forall₂ (Prunes S) cs ps) (hq : List.Forall₂ (Prunes S) cs qs)

include cs ps qs hp hq

theorem joined_list : ∃ rs, ((ps.zip qs).mapM fun p => merge S p.1 p.2) = .ok rs ∧ List.Forall₂ (Prunes S) cs rs ∧
      ∀ i path, populatedAt rs i path ↔ populatedAt ps i path ∨ populatedAt qs i path := by
  induction hp generalizing qs with
  | nil =>
    cases hq
    exact ⟨[], rfl, .nil, fun i path => (or_self_iff).symm⟩
  | cons hp _ ih =>
    obtain _ | ⟨hq, hqs⟩ := hq
    obtain ⟨r, hr⟩ := h.joined hp hq
    obtain ⟨rs, hrs, hprunes, hiff⟩ := ih hqs
    refine ⟨r :: rs, mapM_cons_eq_ok.mpr ⟨r, hr.merge_eq, rs, hrs, rfl⟩, .cons hr.prunes hprunes, fun i path => ?_⟩
    cases i with
    | zero => simpa [populatedAt] using hr.populated_iff path
    | succ i => exact hiff i path

theorem unique_list (hiff : ∀ i path, populatedAt ps i path ↔ populatedAt qs i path) : ps = qs := by
  induction hp generalizing qs with
  | nil =>
    cases hq
    rfl
  | cons hp _ ih =>
    obtain _ | ⟨hq, hqs⟩ := hq
    rw [h.unique hp hq fun path => by simpa [populatedAt] using hiff 0 path,
      ih hqs fun i path => hiff (i + 1) path]

end Lists

end VerifiableCompute.Claim
