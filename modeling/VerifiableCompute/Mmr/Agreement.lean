import VerifiableCompute.Mmr.Accumulator
import VerifiableCompute.Planning.UnionValues
import VerifiableCompute.ProofJob.Completion

/-! The keccak claim of the guest is the one that the provers make: the accumulator of the guest,
the plan of unions and the proof job bracket the batches in the same way. -/

namespace VerifiableCompute.Mmr

open Lib ProofJob

def claimOf {D : Type} (merge : D → D → D) (batch : ℕ → D) (given : Digest → D) : UnknownReceipt → D
  | .keccak index => batch index
  | .union lhs rhs => merge (claimOf merge batch given lhs) (claimOf merge batch given rhs)
  | .given claim => given claim

def leafOf {D : Type} (leaves : List D) (h : leaves ≠ []) (i : ℕ) : D := leaves.getD i (leaves.head h)

theorem leafOf_eq {D : Type} {leaves : List D} (h : leaves ≠ []) (i : ℕ) (hi : i < leaves.length) : leaves[i] = leafOf leaves h i := by
  rw [leafOf, List.getD_eq_getElem?_getD, List.getElem?_eq_getElem hi, Option.getD_some]

theorem mountainRoot_isSome {D : Type} {join : D → D → D} {leaf : ℕ → D} {n : ℕ} (hn : 0 < n) :
    ∃ root, mountainRoot join leaf n = some root := by
  rw [mountainRoot]
  cases hpeaks : ((mountain join leaf 0 n).map Prod.snd).reverse with
  | nil =>
    rw [List.reverse_eq_nil_iff, List.map_eq_nil_iff] at hpeaks
    exact absurd hpeaks (mountain_ne_nil hn)
  | cons peak peaks => exact ⟨_, rfl⟩

variable {devModeDisabled : Bool} {digest : UnknownReceipt → Digest} {job : Job} {s : System}

theorem keccakRoot_of_disabled (hrun : System.Reachable devModeDisabled digest job s) (hdisabled : job.devMode ∧ devModeDisabled)
    (hkeccaks : 0 < job.keccaks) : s.actor.keccakRoot = none := by
  have hstuck : s.actor.keccakRoot = none ∧ s.actor.devMode = some job.devMode ∧ s.inFlight = {.execute job.devMode} ∧ 0 < s.keccaksLeft := by
    induction hrun with
    | start hstart =>
      cases hstart
      exact ⟨rfl, rfl, rfl, hkeccaks⟩
    | @step s s' event _ henabled hstep ih =>
      obtain ⟨-, hdev, hflying, hleft⟩ := ih
      have hcheck (a : JobActor) (hsame : a.devMode = some job.devMode) (devMode : Bool) : a.checkDevMode devModeDisabled ≠ .ok devMode := by
        intro hok
        obtain ⟨devMode', hdevMode, hrequire⟩ := bind_ok_iff.mp hok
        obtain ⟨_, hallowed, _⟩ := bind_ok_iff.mp hrequire
        rw [hsame] at hdevMode
        cases hdevMode
        exact require_ok_iff.mp hallowed hdisabled
      cases event with
      | segment i =>
        obtain ⟨a, hhandle, -⟩ := bind_ok_iff.mp hstep
        obtain ⟨devMode, hok, -⟩ := bind_ok_iff.mp hhandle
        exact absurd hok (hcheck _ hdev _)
      | keccak =>
        obtain ⟨a, hhandle, -⟩ := bind_ok_iff.mp hstep
        obtain ⟨devMode, hok, -⟩ := bind_ok_iff.mp hhandle
        exact absurd hok (hcheck _ hdev _)
      | done task =>
        obtain ⟨htask, hlast⟩ := henabled
        rw [hflying, Multiset.mem_singleton] at htask
        have hzero := (hlast ⟨_, htask⟩).2
        omega
  exact hstuck.1

theorem keccakRoot_of_reachable (hrun : System.Reachable devModeDisabled digest job s) (hkeccaks : 0 < job.keccaks) :
    s.actor.keccakRoot = none ∨ s.actor.keccakRoot = job.keccakRoot := by
  by_cases hallowed : job.devMode ∧ devModeDisabled
  · exact .inl (keccakRoot_of_disabled hrun hallowed hkeccaks)
  · have hinv := (hrun.inv hallowed).inv
    cases hinv.keccaks with
    | build _ root => exact .inl root
    | mergePeaks _ root => exact .inl root
    | done phase => exact .inr (hinv.keccakRoot_eq phase)

/-- The accumulator of the guest, every plan and every proof job have the same root. -/
theorem keccak_roots_agree {D : Type} {merge : D → D → D} (hcomm : ∀ a b, merge a b = merge b a) {leaves : List D} (hleaves : leaves ≠ []) :
    ∃ root,
      (do (← MerkleMountainAccumulator.insertAll merge leaves).root merge) = .ok root ∧
      (∀ calls : List Planning.Enqueue, calls.count .keccak = leaves.length →
        (.segment ∈ calls → ∃ last p, Planning.plan calls = .ok (last, p)) ∧
        ∀ last p, Planning.plan calls = .ok (last, p) → ∃ final top, p.tasks[last]? = some final ∧ final.keccakDependsOn = [top] ∧
          Planning.unionValue merge (leafOf leaves hleaves) p.tasks top = some root) ∧
      ∀ (devModeDisabled : Bool) (digest : UnknownReceipt → Digest) (job : Job) (s : System), job.keccaks = leaves.length →
        System.Reachable devModeDisabled digest job s →
        (∀ t, s.actor.keccakRoot = some t → ∀ given, claimOf merge (leafOf leaves hleaves) given t = root) ∧
        (job.Provable devModeDisabled digest → s.inFlight = 0 → s.actor.keccakRoot ≠ none) := by
  have hlength : 0 < leaves.length := List.length_pos_iff.mpr hleaves
  obtain ⟨root, hroot⟩ := @mountainRoot_isSome D merge (leafOf leaves hleaves) _ hlength
  refine ⟨root, MerkleMountainAccumulator.root_insertAll hcomm (leafOf_eq hleaves) hroot, fun calls hcount => ⟨fun hsegment => ?_,
    fun last p hplan => ?_⟩, fun devModeDisabled digest job s hkeccaks hrun => ⟨fun t ht given => ?_, fun hp hidle => ?_⟩⟩
  · obtain ⟨last, p, _, _, hplan, -⟩ := Planning.plan_correct calls hsegment
    exact ⟨last, p, hplan⟩
  · obtain ⟨final, top, hfinal, htop, hvalue⟩ := @Planning.plan_keccakRoot D merge (leafOf leaves hleaves) p hcomm calls
      (hcount ▸ hlength) last hplan
    refine ⟨final, top, hfinal, htop, ?_⟩
    rw [hvalue, hcount, hroot]
  · obtain hnone | hall := keccakRoot_of_reachable hrun (hkeccaks ▸ hlength)
    · rw [hnone] at ht
      cases ht
    · have hmap : (mountainRoot UnknownReceipt.union UnknownReceipt.keccak job.keccaks).map (claimOf merge (leafOf leaves hleaves) given) =
          mountainRoot merge (leafOf leaves hleaves) job.keccaks := mountainRoot_map (fun _ _ => rfl) job.keccaks
      have htree : mountainRoot UnknownReceipt.union UnknownReceipt.keccak job.keccaks = some t := hall.symm.trans ht
      rw [htree, hkeccaks, hroot] at hmap
      exact Option.some.inj hmap
  · obtain ⟨-, -, -, -, -, hend, -⟩ := (hrun.inv hp.allowed).finished hp.segments hidle
    obtain ⟨t, ht⟩ := @mountainRoot_isSome _ UnknownReceipt.union UnknownReceipt.keccak job.keccaks (hkeccaks ▸ hlength)
    rw [hend, Job.keccakRoot, ht]
    exact Option.some_ne_none t

theorem keccak_roots_agree_three :
    ∃ root, (do (← MerkleMountainAccumulator.insertAll (· + ·) [1, 2, 4]).root (· + ·)) = .ok root ∧
      ∀ calls : List Planning.Enqueue, calls.count .keccak = 3 → .segment ∈ calls → ∃ last p, Planning.plan calls = .ok (last, p) := by
  obtain ⟨root, hguest, hplans, -⟩ := @keccak_roots_agree ℕ (· + ·) Nat.add_comm [1, 2, 4] (List.cons_ne_nil _ _)
  exact ⟨root, hguest, fun calls hcount hsegment => (hplans calls hcount).1 hsegment⟩

end VerifiableCompute.Mmr
