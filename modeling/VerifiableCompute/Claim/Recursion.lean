import VerifiableCompute.Lib.Checked
import VerifiableCompute.Claim.Types

/-! The claims that recursive proofs make from the claims they verify: joining two claims of
one execution, and resolving the first assumption of a claim. -/

namespace VerifiableCompute.Claim

open Lib Binfmt

variable {T C : Type} (S : Sha256)

/-- The digest that stands where a value is missing. -/
structure PrunedValueError where
  digest : Digest

namespace MaybePruned

def asValue : MaybePruned T → Except PrunedValueError T
  | .value v => .ok v
  | .pruned digest => .error ⟨digest⟩

/-- No value, or zero in place of one. -/
def isNone : MaybePruned (Option T) → Bool
  | .value v => v.isNone
  | .pruned digest => digest = .zero

end MaybePruned

/-- A claim of which only the digest is known. -/
inductive Unknown

instance : Digestible Unknown where
  digest _ x := nomatch x

namespace Assumptions

def isEmpty : MaybePruned Assumptions → Bool
  | .value assumptions => assumptions.list.isEmpty
  | .pruned digest => digest = .zero

inductive ResolveError
  | outputPruned (error : PrunedValueError)
  | emptyOutput
  | assumptionsPruned (error : PrunedValueError)
  | assumptionsEmpty
  | assumptionPruned (error : PrunedValueError)
  | notHead (resolved head : Digest)

/-- The first assumption is dropped where its digest is the resolved one. -/
def resolve (assumptions : Assumptions) (resolved : Digest) : Except ResolveError Assumptions :=
  match assumptions.list with
  | [] => .error .assumptionsEmpty
  | head :: tail => do
    require (digest S head = resolved) (.notHead resolved (digest S head))
    return ⟨tail⟩

end Assumptions

open Assumptions (ResolveError)

/-- The failure of a part in the words of the whole. -/
def context {Error Error' : Type} (wrap : Error → Error') : Except Error T → Except Error' T
  | .ok v => .ok v
  | .error e => .error (wrap e)

namespace ReceiptClaim

/-- From the start of one claim to the end of the other. -/
def join (self other : ReceiptClaim) : ReceiptClaim where
  pre := self.pre
  post := other.post
  exitCode := other.exitCode
  input := self.input
  output := other.output

/-- The control root is that of the first assumption; the claim is the one given. -/
def resolve [Digestible C] (self : ReceiptClaim) (assumption : C) : Except ResolveError ReceiptClaim := do
  match ← context .outputPruned self.output.asValue with
  | none => throw .emptyOutput
  | some output =>
    let assumptions ← context .assumptionsPruned output.assumptions.asValue
    match assumptions.list with
    | [] => throw .assumptionsEmpty
    | head :: _ =>
      let head ← context .assumptionPruned head.asValue
      let resolved : Assumption := ⟨digest S assumption, head.controlRoot⟩
      let assumptions ← assumptions.resolve S (digest S resolved)
      return { self with output := .value (some { output with assumptions := .value assumptions }) }

def joinAll (first : ReceiptClaim) (rest : List ReceiptClaim) : ReceiptClaim := rest.foldl join first

def resolveAll [Digestible C] (self : ReceiptClaim) (assumptions : List C) : Except ResolveError ReceiptClaim :=
  assumptions.foldlM (resolve S) self

variable {S}

theorem joinAll_eq (first : ReceiptClaim) (rest : List ReceiptClaim) (last : ReceiptClaim)
    (hlast : (first :: rest).getLast? = some last) :
    joinAll first rest = { last with pre := first.pre, input := first.input } := by
  induction rest generalizing first with
  | nil =>
    cases hlast
    rfl
  | cons next rest ih =>
    rw [joinAll, List.foldl_cons]
    have hjoined : ((first.join next) :: rest).getLast? = some last ∨ rest = [] ∧ last = next := by
      cases rest with
      | nil =>
        cases hlast
        exact .inr ⟨rfl, rfl⟩
      | cons next' rest =>
        rw [List.getLast?_cons_cons, List.getLast?_cons_cons] at hlast
        rw [List.getLast?_cons_cons]
        exact .inl hlast
    obtain hjoined | ⟨rfl, rfl⟩ := hjoined
    · exact ih (first.join next) hjoined
    · rfl

theorem resolveAll_eq [Digestible C] {claim : ReceiptClaim} {output : Output} {assumptions : List Assumption} {claims : List C}
    (houtput : claim.output = .value (some output)) (hassumptions : output.assumptions = .value ⟨assumptions.map .value⟩)
    (hclaims : List.Forall₂ (fun a c => digest S c = a.claim) assumptions claims) :
    claim.resolveAll S claims = .ok { claim with output := .value (some { output with assumptions := .value ⟨[]⟩ }) } := by
  induction hclaims generalizing claim output with
  | nil =>
    cases claim
    cases output
    cases houtput
    cases hassumptions
    rfl
  | @cons a c assumptions claims hclaim hclaims ih =>
    have hhead : (⟨digest S c, a.controlRoot⟩ : Assumption) = a := by
      rw [hclaim]
    have hstep : claim.resolve S c =
        .ok { claim with output := .value (some { output with assumptions := .value ⟨assumptions.map .value⟩ }) } := by
      rw [resolve, houtput]
      show ((context ResolveError.assumptionsPruned output.assumptions.asValue) >>= _) = _
      rw [hassumptions]
      show ((Assumptions.resolve S ⟨.value a :: assumptions.map .value⟩ (digest S (⟨digest S c, a.controlRoot⟩ : Assumption))) >>= _) = _
      have hresolve : Assumptions.resolve S ⟨.value a :: assumptions.map .value⟩ (digest S a) = .ok ⟨assumptions.map .value⟩ :=
        bind_ok_iff.mpr ⟨(), require_ok_iff.mpr rfl, rfl⟩
      rw [hhead, hresolve]
      rfl
    have hrest := @ih { claim with output := .value (some { output with assumptions := .value ⟨assumptions.map .value⟩ }) }
      { output with assumptions := .value ⟨assumptions.map .value⟩ } rfl rfl
    rw [resolveAll, List.foldlM_cons, hstep]
    exact hrest

end ReceiptClaim

end VerifiableCompute.Claim
