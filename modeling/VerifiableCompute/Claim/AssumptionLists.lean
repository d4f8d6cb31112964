import VerifiableCompute.Claim.Recursion

/-! Lists of assumptions that grow and shrink at the head, as lists and as the digest of a list.
The digest is a right fold that ends in zero, so the head is all that either has to know. -/

namespace VerifiableCompute.Claim

open Lib Binfmt
open Assumptions (ResolveError)

variable (S : Sha256)

def Assumptions.add (assumption : MaybePruned Assumption) (assumptions : Assumptions) : Assumptions :=
  ⟨assumption :: assumptions.list⟩

/-- Why an assumption is not resolved, on a list or on its digest. -/
inductive ListError
  | list (error : ResolveError)
  | notReconstructed (expected reconstructed : Digest)

namespace MaybePruned

def addAssumption (assumption : MaybePruned Assumption) : MaybePruned Assumptions → MaybePruned Assumptions
  | .value list => .value (list.add assumption)
  | .pruned listDigest => .pruned (taggedListCons S "risc0.Assumptions" (digest S assumption) listDigest)

/-- The caller says what the digest of the rest of the list is. -/
def resolveAssumption (resolved tail : Digest) : MaybePruned Assumptions → Except ListError (MaybePruned Assumptions)
  | .value list => do
    let list ← context .list (list.resolve S resolved)
    return .value list
  | .pruned listDigest => do
    let reconstructed := taggedListCons S "risc0.Assumptions" resolved tail
    require (reconstructed = listDigest) (.notReconstructed listDigest reconstructed)
    return .pruned tail

end MaybePruned

inductive ListOp
  | add (assumption : MaybePruned Assumption)
  | resolve (resolved tail : Digest)

open ListOp

def ListOp.apply : ListOp → MaybePruned Assumptions → Except ListError (MaybePruned Assumptions)
  | .add assumption, x => .ok (MaybePruned.addAssumption S assumption x)
  | .resolve resolved tail, x => MaybePruned.resolveAssumption S resolved tail x

/-- A failed operation leaves what it was applied to. -/
def ListOp.after (op : ListOp) (x : MaybePruned Assumptions) : MaybePruned Assumptions :=
  match op.apply S x with
  | .ok x' => x'
  | .error _ => x

/-- Whether each operation succeeds, and the digest after it. -/
def runOps : List ListOp → MaybePruned Assumptions → List (Bool × Digest)
  | [], _ => []
  | op :: ops, x => ((op.apply S x).isOk, digest S (op.after S x)) :: runOps ops (op.after S x)

def consBytes (head tail : Digest) : List Byte :=
  (S (utf8Bytes "risc0.Assumptions")).toList ++ (head.toList ++ tail.toList) ++ leBytes 2 2

def ListOp.afterList (op : ListOp) (assumptions : Assumptions) : Assumptions :=
  match op with
  | .add assumption => assumptions.add assumption
  | .resolve resolved _ => if (assumptions.list.head?.map (digest S)) = some resolved then ⟨assumptions.list.tail⟩ else assumptions

/-- A resolution of a list that is not empty comes with the digest of the list's rest. -/
def ListOp.TrueTail (op : ListOp) (assumptions : Assumptions) : Prop :=
  match op with
  | .add _ => True
  | .resolve _ tail => assumptions.list ≠ [] → tail = digest S (⟨assumptions.list.tail⟩ : Assumptions)

def TrueTails : List ListOp → Assumptions → Prop
  | [], _ => True
  | op :: ops, assumptions => op.TrueTail S assumptions ∧ TrueTails ops (op.afterList S assumptions)

/-- The inputs of the hash that a resolution compares: the reconstructed one and the list's own. -/
def ListOp.hashed (op : ListOp) (assumptions : Assumptions) : List (List Byte) :=
  match op, assumptions.list with
  | .add _, _ => []
  | .resolve resolved tail, [] => [consBytes S resolved tail]
  | .resolve resolved tail, head :: rest => [consBytes S resolved tail, consBytes S (digest S head) (digest S (⟨rest⟩ : Assumptions))]

def hashedInputs : List ListOp → Assumptions → List (List Byte)
  | [], _ => []
  | op :: ops, assumptions => op.hashed S assumptions ++ hashedInputs ops (op.afterList S assumptions)

variable {S}

theorem taggedListCons_eq (head tail : Digest) : taggedListCons S "risc0.Assumptions" head tail = S (consBytes S head tail) := by
  simp [taggedListCons, taggedStruct, consBytes]

theorem consBytes_injective {head tail head' tail' : Digest} (h : consBytes S head tail = consBytes S head' tail') :
    head = head' ∧ tail = tail' := by
  rw [consBytes, consBytes, List.append_cancel_right_eq, List.append_cancel_left_eq] at h
  obtain ⟨hhead, htail⟩ := List.append_inj h (by simp)
  exact ⟨Vector.toList_inj.mp hhead, Vector.toList_inj.mp htail⟩

@[simp] theorem digest_cons (head : MaybePruned Assumption) (tail : List (MaybePruned Assumption)) :
    digest S (⟨head :: tail⟩ : Assumptions) = taggedListCons S "risc0.Assumptions" (digest S head) (digest S (⟨tail⟩ : Assumptions)) := rfl

@[simp] theorem digest_nil : digest S (⟨[]⟩ : Assumptions) = .zero := rfl

structure Agrees (op : ListOp) (assumptions : Assumptions) : Prop where
  isOk : (op.apply S (.pruned (digest S assumptions))).isOk = (op.apply S (.value assumptions)).isOk
  value : op.after S (.value assumptions) = .value (op.afterList S assumptions)
  pruned : op.after S (.pruned (digest S assumptions)) = .pruned (digest S (op.afterList S assumptions))

theorem add_agrees (assumption : MaybePruned Assumption) (assumptions : Assumptions) : Agrees (S := S) (.add assumption) assumptions :=
  ⟨rfl, rfl, rfl⟩

theorem apply_value_nil (resolved tail : Digest) :
    apply S (.resolve resolved tail) (.value ⟨[]⟩) = .error (.list .assumptionsEmpty) := rfl

theorem apply_value_cons (resolved tail : Digest) (head : MaybePruned Assumption) (rest : List (MaybePruned Assumption)) :
    apply S (.resolve resolved tail) (.value ⟨head :: rest⟩) =
      if digest S head = resolved then .ok (.value ⟨rest⟩) else .error (.list (.notHead resolved (digest S head))) := by
  by_cases h : digest S head = resolved
  · simp [apply, MaybePruned.resolveAssumption, Assumptions.resolve, require, context, h]
  · simp [apply, MaybePruned.resolveAssumption, Assumptions.resolve, require, context, h]

theorem apply_pruned (resolved tail listDigest : Digest) : apply S (.resolve resolved tail) (.pruned listDigest) =
      if S (consBytes S resolved tail) = listDigest then .ok (.pruned tail)
      else .error (.notReconstructed listDigest (S (consBytes S resolved tail))) := by
  by_cases h : S (consBytes S resolved tail) = listDigest
  · simp [apply, MaybePruned.resolveAssumption, require, taggedListCons_eq, h]
  · simp [apply, MaybePruned.resolveAssumption, require, taggedListCons_eq, h]

theorem resolve_nil_agrees (resolved tail : Digest) (hnonzero : S (consBytes S resolved tail) ≠ .zero) :
    Agrees (S := S) (.resolve resolved tail) ⟨[]⟩ := by
  have hpruned := apply_pruned (S := S) resolved tail .zero
  rw [if_neg hnonzero] at hpruned
  constructor
  · rw [digest_nil, apply_value_nil, hpruned]
    rfl
  · rw [after, apply_value_nil]
    rfl
  · rw [after, digest_nil, hpruned]
    rfl

theorem resolve_cons_agrees (resolved : Digest) (head : MaybePruned Assumption) (rest : List (MaybePruned Assumption))
    (hinj : S (consBytes S resolved (digest S (⟨rest⟩ : Assumptions))) = S (consBytes S (digest S head) (digest S (⟨rest⟩ : Assumptions))) →
      consBytes S resolved (digest S (⟨rest⟩ : Assumptions)) = consBytes S (digest S head) (digest S (⟨rest⟩ : Assumptions))) :
    Agrees (S := S) (.resolve resolved (digest S (⟨rest⟩ : Assumptions))) ⟨head :: rest⟩ := by
  have hvalue := apply_value_cons (S := S) resolved (digest S (⟨rest⟩ : Assumptions)) head rest
  have hpruned := apply_pruned (S := S) resolved (digest S (⟨rest⟩ : Assumptions)) (digest S (⟨head :: rest⟩ : Assumptions))
  rw [digest_cons, taggedListCons_eq] at hpruned
  by_cases h : digest S head = resolved
  · subst h
    rw [if_pos rfl] at hvalue hpruned
    constructor
    · rw [digest_cons, taggedListCons_eq, hvalue, hpruned]
      rfl
    · rw [after, hvalue]
      simp [afterList]
    · rw [after, digest_cons, taggedListCons_eq, hpruned]
      simp [afterList]
  · have hne : S (consBytes S resolved (digest S (⟨rest⟩ : Assumptions))) ≠ S (consBytes S (digest S head) (digest S (⟨rest⟩ : Assumptions))) :=
      fun heq => h (consBytes_injective (hinj heq)).1.symm
    rw [if_neg h] at hvalue
    rw [if_neg hne] at hpruned
    constructor
    · rw [digest_cons, taggedListCons_eq, hvalue, hpruned]
      rfl
    · rw [after, hvalue]
      simp [afterList, h]
    · rw [after, digest_cons, taggedListCons_eq, hpruned]
      simp [afterList, h, taggedListCons_eq]

theorem op_agrees {op : ListOp} {assumptions : Assumptions} (htail : op.TrueTail S assumptions)
    (hinj : ∀ x ∈ op.hashed S assumptions, ∀ y ∈ op.hashed S assumptions, S x = S y → x = y)
    (hnonzero : ∀ x ∈ op.hashed S assumptions, S x ≠ .zero) : Agrees (S := S) op assumptions := by
  obtain ⟨list⟩ := assumptions
  cases op with
  | add assumption => exact add_agrees assumption ⟨list⟩
  | resolve resolved tail =>
    cases list with
    | nil => exact resolve_nil_agrees resolved tail (hnonzero _ List.mem_cons_self)
    | cons head rest =>
      obtain rfl : tail = digest S (⟨rest⟩ : Assumptions) := htail (fun hnil => List.cons_ne_nil _ _ hnil)
      exact resolve_cons_agrees resolved head rest
        (hinj _ List.mem_cons_self _ (List.mem_cons_of_mem _ List.mem_cons_self))

theorem runOps_agree {ops : List ListOp} {assumptions : Assumptions} (htails : TrueTails S ops assumptions)
    (hinj : ∀ x ∈ hashedInputs S ops assumptions, ∀ y ∈ hashedInputs S ops assumptions, S x = S y → x = y)
    (hnonzero : ∀ x ∈ hashedInputs S ops assumptions, S x ≠ .zero) :
    runOps S ops (.pruned (digest S assumptions)) = runOps S ops (.value assumptions) := by
  induction ops generalizing assumptions with
  | nil => rfl
  | cons op ops ih =>
    obtain ⟨htail, hrest⟩ := htails
    have hhere : ∀ x ∈ op.hashed S assumptions, x ∈ hashedInputs S (op :: ops) assumptions := fun x hx =>
      List.mem_append_left _ hx
    have hlater : ∀ x ∈ hashedInputs S ops (op.afterList S assumptions), x ∈ hashedInputs S (op :: ops) assumptions := fun x hx =>
      List.mem_append_right _ hx
    have hop : Agrees (S := S) op assumptions := op_agrees htail
      (fun x hx y hy => hinj x (hhere x hx) y (hhere y hy)) (fun x hx => hnonzero x (hhere x hx))
    rw [runOps, runOps, hop.isOk, hop.value, hop.pruned,
      ih hrest (fun x hx y hy => hinj x (hlater x hx) y (hlater y hy)) (fun x hx => hnonzero x (hlater x hx))]
    rfl

def resolveOps (S : Sha256) : List (MaybePruned Assumption) → List ListOp
  | [] => []
  | head :: rest => .resolve (digest S head) (digest S (⟨rest⟩ : Assumptions)) :: resolveOps S rest

def applyAll (S : Sha256) (ops : List ListOp) (x : MaybePruned Assumptions) : Except ListError (MaybePruned Assumptions) :=
  ops.foldlM (fun x op => op.apply S x) x

theorem applyAll_resolveOps (list : List (MaybePruned Assumption)) :
    applyAll S (resolveOps S list) (.value ⟨list⟩) = .ok (.value ⟨[]⟩) ∧
      applyAll S (resolveOps S list) (.pruned (digest S (⟨list⟩ : Assumptions))) = .ok (.pruned .zero) := by
  induction list with
  | nil => exact ⟨rfl, rfl⟩
  | cons head rest ih =>
    have hvalue := apply_value_cons (S := S) (digest S head) (digest S (⟨rest⟩ : Assumptions)) head rest
    have hpruned := apply_pruned (S := S) (digest S head) (digest S (⟨rest⟩ : Assumptions)) (digest S (⟨head :: rest⟩ : Assumptions))
    rw [if_pos rfl] at hvalue
    rw [digest_cons, taggedListCons_eq, if_pos rfl] at hpruned
    constructor
    · rw [applyAll, resolveOps, List.foldlM_cons, hvalue]
      exact ih.1
    · rw [applyAll, resolveOps, List.foldlM_cons, digest_cons, taggedListCons_eq, hpruned]
      exact ih.2

/-- A list and its digest take every operation alike, where the hash tells the compared inputs
from each other and from the empty list. Once all assumptions are resolved the digest is that of
the empty list and of a claim without assumptions. -/
theorem pruned_assumptions_agree (S : Sha256) (assumptions : Assumptions) (ops : List ListOp) (htails : TrueTails S ops assumptions)
    (hinj : ∀ x ∈ hashedInputs S ops assumptions, ∀ y ∈ hashedInputs S ops assumptions, S x = S y → x = y)
    (hnonzero : ∀ x ∈ hashedInputs S ops assumptions, S x ≠ .zero) :
    runOps S ops (.pruned (digest S assumptions)) = runOps S ops (.value assumptions) ∧
      applyAll S (resolveOps S assumptions.list) (.value assumptions) = .ok (.value ⟨[]⟩) ∧
      applyAll S (resolveOps S assumptions.list) (.pruned (digest S assumptions)) = .ok (.pruned (digest S (⟨[]⟩ : Assumptions))) ∧
      ∀ imageId journal,
        digest S { ReceiptClaim.ok imageId journal with output := .value (some ⟨journal, .value ⟨[]⟩⟩) } =
          digest S (ReceiptClaim.ok imageId journal) := by
  obtain ⟨hvalue, hpruned⟩ := applyAll_resolveOps (S := S) assumptions.list
  exact ⟨runOps_agree htails hinj hnonzero, hvalue, hpruned, fun _ _ => rfl⟩

/-- A hash that keeps the second digest of its input keeps the first one under the tag. -/
theorem taggedStruct_second {S : Sha256} (hS : ∀ bytes (i : Fin 32), (S bytes)[i] = bytes.getD (32 + i) 1) (tag : String)
    (first second : Digest) : taggedStruct S tag [first, second] [] = first := by
  have hsecond : ∀ (a b : Digest) (rest : List Byte) (i : Fin 32), (a.toList ++ (b.toList ++ rest)).getD (32 + i) 1 = b[i] := by
    intro a b rest i
    rw [List.getD_append_right _ _ _ _ (by simp), List.getD_append _ _ _ _ (by simp)]
    simp
  apply Vector.ext
  intro i hi
  have h := hS ((S (utf8Bytes tag)).toList ++ (first.toList ++ (second.toList ++ leBytes 2 2))) ⟨i, hi⟩
  rw [hsecond] at h
  simpa [taggedStruct] using h

/-- A hash that keeps the head of a list, on an assumption that is added to another and resolved,
a resolution that fails, and the resolution of the last. -/
theorem pruned_assumptions_agree_two :
    let S : Sha256 := fun bytes => .ofFn fun i => bytes.getD (32 + i) 1
    let assumption (b : Byte) : MaybePruned Assumption := .value ⟨.replicate 32 b, .zero⟩
    let ops : List ListOp := [.add (assumption 2), .resolve (.replicate 32 2) (digest S (⟨[assumption 3]⟩ : Assumptions)),
      .resolve (.replicate 32 4) .zero, .resolve (.replicate 32 3) .zero]
    runOps S ops (.pruned (digest S (⟨[assumption 3]⟩ : Assumptions))) = runOps S ops (.value ⟨[assumption 3]⟩) ∧
      (runOps S ops (.value ⟨[assumption 3]⟩)).map Prod.fst = [true, true, false, true] := by
  intro S assumption ops
  have hS : ∀ bytes (i : Fin 32), (S bytes)[i] = bytes.getD (32 + i) 1 := fun bytes i => by simp [S]
  have hassumption : ∀ b, digest S (assumption b) = .replicate 32 b := fun b => taggedStruct_second hS _ _ _
  have hcons : ∀ head tail, S (consBytes S head tail) = head := fun head tail =>
    (taggedListCons_eq (S := S) head tail).symm.trans (taggedStruct_second hS _ head tail)
  have hlist : ∀ tail, taggedListCons S "risc0.Assumptions" (.replicate 32 3) tail = .replicate 32 3 := fun tail =>
    taggedStruct_second hS _ _ tail
  have hne : ∀ b c : Byte, b ≠ c → (.replicate 32 b : Digest) ≠ .replicate 32 c := fun b c hbc h =>
    hbc (by simpa using congrArg (fun d : Digest => d[0]) h)
  have h0 : ∀ b : Byte, b ≠ 0 → (.replicate 32 b : Digest) ≠ Digest.zero := fun b => hne b 0
  clear_value S
  have htails : TrueTails S ops ⟨[assumption 3]⟩ := by
    simp [ops, TrueTails, ListOp.TrueTail, ListOp.afterList, Assumptions.add, hassumption]
  -- the two inputs of each resolution
  have hinputs : hashedInputs S ops ⟨[assumption 3]⟩ =
      [consBytes S (.replicate 32 2) (.replicate 32 3), consBytes S (.replicate 32 2) (.replicate 32 3),
        consBytes S (.replicate 32 4) .zero, consBytes S (.replicate 32 3) .zero,
        consBytes S (.replicate 32 3) .zero, consBytes S (.replicate 32 3) .zero] := by
    simp [ops, hashedInputs, ListOp.hashed, ListOp.afterList, Assumptions.add, hassumption]
    exact congrArg _ (hlist _)
  have hform : ∀ x ∈ hashedInputs S ops ⟨[assumption 3]⟩,
      x = consBytes S (S x) (if S x = .replicate 32 2 then .replicate 32 3 else .zero) ∧ S x ≠ .zero := by
    rw [hinputs]
    simp [hcons, h0]
  have h := pruned_assumptions_agree S ⟨[assumption 3]⟩ ops htails
    (fun x hx y hy heq => by rw [(hform x hx).1, (hform y hy).1, heq]) (fun x hx => (hform x hx).2)
  refine ⟨h.1, ?_⟩
  have hvalue := apply_value_cons (S := S)
  have hadd : ∀ x list, ListOp.apply S (.add x) (.value list) = .ok (.value (list.add x)) := fun _ _ => rfl
  simp [ops, runOps, ListOp.after, hadd, hvalue, hassumption, Assumptions.add, Except.isOk, Except.toBool]

end VerifiableCompute.Claim
