import VerifiableCompute.Claim.Types

/-! Digests bind what they are digests of: values with nothing pruned that have one digest are equal, if the hash has no
collision among the byte strings hashed for the two. -/

namespace VerifiableCompute.Binfmt

open Lib List

/-- No two of these byte strings have one digest, and none has the digest zero. -/
structure CollisionFree (S : Sha256) (D : Set (List Byte)) : Prop where
  injOn : Set.InjOn S D
  ne_zero : ∀ bytes ∈ D, S bytes ≠ .zero

section Structs

variable (S : Sha256)

def structBytes (tag : String) (down : List Digest) (data : List (BitVec 32)) : List Byte :=
  (S (utf8Bytes tag)).toList ++ down.flatMap (·.toList) ++ data.flatMap u32LeBytes ++ leBytes 2 down.length

def structHashed (tag : String) (down : List Digest) (data : List (BitVec 32)) : List (List Byte) :=
  [utf8Bytes tag, structBytes S tag down data]

def listHashed (tag : String) : List Digest → List (List Byte)
  | [] => []
  | head :: tail => listHashed tag tail ++ structHashed S tag [head, taggedList S tag tail] []

end Structs

variable {S : Sha256} {D : Set (List Byte)} {tag tag' : String} {down down' : List Digest} {data data' : List (BitVec 32)}

theorem utf8Bytes_injective : Function.Injective utf8Bytes := by
  intro s t h
  have hbytes := map_injective_iff.mpr (fun _ _ hbyte => UInt8.toBitVec_inj.mp hbyte) h
  exact String.toByteArray_inj.mp (ByteArray.ext (Array.toList_inj.mp hbytes))

theorem u32LeBytes_injective : Function.Injective u32LeBytes := by
  intro x y h
  have hx : x.toNat < 256 ^ 4 := x.isLt
  have hy : y.toNat < 256 ^ 4 := y.isLt
  have hmod := congrArg leNat h
  rw [u32LeBytes, u32LeBytes, leNat_leBytes, leNat_leBytes, Nat.mod_eq_of_lt hx, Nat.mod_eq_of_lt hy] at hmod
  exact BitVec.eq_of_toNat_eq hmod

theorem flatMap_injective {A B : Type} {f : A → List B} {k : ℕ} (hf : Function.Injective f) (hk : 0 < k)
    (hlength : ∀ a, (f a).length = k) : Function.Injective (flatMap f) := by
  intro l
  induction l with
  | nil =>
    intro l' h
    cases l' with
    | nil => rfl
    | cons a l' =>
      have hle := congrArg length h
      rw [flatMap_cons, flatMap_nil, length_append, length_nil, hlength] at hle
      omega
  | cons a l ih =>
    intro l' h
    cases l' with
    | nil =>
      have hle := congrArg length h
      rw [flatMap_cons, flatMap_nil, length_append, length_nil, hlength] at hle
      omega
    | cons a' l' =>
      rw [flatMap_cons, flatMap_cons] at h
      obtain ⟨ha, hl⟩ := append_inj h ((hlength a).trans (hlength a').symm)
      rw [hf ha, ih hl]

theorem length_flatMap_digests (ds : List Digest) : (ds.flatMap (·.toList)).length = ds.length * 32 := by
  induction ds with
  | nil => rfl
  | cons d ds ih =>
    rw [flatMap_cons, length_append, ih, Vector.length_toList, length_cons]
    omega

/-- The count at the end says where the digests end, and the fields are equally long on both sides. -/
theorem structBytes_inj (hdown : down.length < 2 ^ 16) (hdown' : down'.length < 2 ^ 16)
    (h : structBytes S tag down data = structBytes S tag' down' data') :
    S (utf8Bytes tag) = S (utf8Bytes tag') ∧ down = down' ∧ data = data' := by
  obtain ⟨hfields, hcount⟩ := append_inj' h ((leBytes_length 2 _).trans (leBytes_length 2 _).symm)
  have hlength : down.length = down'.length := by
    have hmod := congrArg leNat hcount
    have hbytes : (256 : ℕ) ^ 2 = 2 ^ 16 := rfl
    rwa [leNat_leBytes, leNat_leBytes, hbytes, Nat.mod_eq_of_lt hdown, Nat.mod_eq_of_lt hdown'] at hmod
  have hfront : ((S (utf8Bytes tag)).toList ++ down.flatMap (·.toList)).length =
      ((S (utf8Bytes tag')).toList ++ down'.flatMap (·.toList)).length := by
    rw [length_append, length_append, Vector.length_toList, Vector.length_toList, length_flatMap_digests,
      length_flatMap_digests, hlength]
  obtain ⟨hfront, hdata⟩ := append_inj hfields hfront
  obtain ⟨htag, hdigests⟩ := append_inj hfront ((Vector.length_toList ..).trans (Vector.length_toList ..).symm)
  refine ⟨Vector.toList_inj.mp htag, ?_, ?_⟩
  · exact flatMap_injective (fun _ _ hd => Vector.toList_inj.mp hd) (by norm_num : 0 < 32) (fun d => d.length_toList) hdigests
  · exact flatMap_injective u32LeBytes_injective (by norm_num : 0 < 4) (fun _ => leBytes_length 4 _) hdata

theorem taggedStruct_inj (hS : CollisionFree S D) (hdown : down.length < 2 ^ 16) (hdown' : down'.length < 2 ^ 16)
    (hD : ∀ bytes ∈ structHashed S tag down data, bytes ∈ D) (hD' : ∀ bytes ∈ structHashed S tag' down' data', bytes ∈ D)
    (h : taggedStruct S tag down data = taggedStruct S tag' down' data') : tag = tag' ∧ down = down' ∧ data = data' := by
  have htags : utf8Bytes tag ∈ D ∧ utf8Bytes tag' ∈ D := ⟨hD _ mem_cons_self, hD' _ mem_cons_self⟩
  have hbytes := hS.injOn (hD _ (.tail _ mem_cons_self)) (hD' _ (.tail _ mem_cons_self)) h
  obtain ⟨htag, hfields⟩ := structBytes_inj hdown hdown' hbytes
  exact ⟨utf8Bytes_injective (hS.injOn htags.1 htags.2 htag), hfields⟩

theorem taggedStruct_ne_zero (hS : CollisionFree S D) (hD : ∀ bytes ∈ structHashed S tag down data, bytes ∈ D) :
    taggedStruct S tag down data ≠ .zero := hS.ne_zero _ (hD _ (.tail _ mem_cons_self))

theorem taggedList_inj (hS : CollisionFree S D) {list list' : List Digest} (hD : ∀ bytes ∈ listHashed S tag list, bytes ∈ D)
    (hD' : ∀ bytes ∈ listHashed S tag list', bytes ∈ D) (h : taggedList S tag list = taggedList S tag list') : list = list' := by
  induction list generalizing list' with
  | nil =>
    cases list' with
    | nil => rfl
    | cons head' tail' => exact absurd h.symm (taggedStruct_ne_zero hS fun _ hmem => hD' _ (mem_append_right _ hmem))
  | cons head tail ih =>
    cases list' with
    | nil => exact absurd h (taggedStruct_ne_zero hS fun _ hmem => hD _ (mem_append_right _ hmem))
    | cons head' tail' =>
      have hpairs := (taggedStruct_inj hS (by simp) (by simp)
        (fun _ hmem => hD _ (mem_append_right _ hmem)) (fun _ hmem => hD' _ (mem_append_right _ hmem)) h).2.1
      obtain ⟨hhead, htails⟩ := cons.inj hpairs
      have htail := ih (fun _ hmem => hD _ (mem_append_left _ hmem)) (fun _ hmem => hD' _ (mem_append_left _ hmem))
        (cons.inj htails).1
      rw [hhead, htail]

end VerifiableCompute.Binfmt

namespace VerifiableCompute.Claim

open Lib Binfmt BitVec

/-- What is hashed for the digest of a value, and the values with nothing pruned. -/
class Hashing (T : Type) extends Digestible T where
  hashInputs : Sha256 → T → List (List Byte)
  unpruned : T → Prop

export Hashing (hashInputs unpruned)

section Inputs

variable {T C : Type}

instance [Hashing T] : Hashing (MaybePruned T) where
  hashInputs S
    | .value v => hashInputs S v
    | .pruned _ => []
  unpruned
    | .value v => unpruned v
    | .pruned _ => False

instance [Hashing T] : Hashing (Option T) where
  hashInputs S
    | some v => hashInputs S v
    | none => []
  unpruned
    | some v => unpruned v
    | none => True

instance : Hashing (List Byte) where
  hashInputs _ bytes := [bytes]
  unpruned _ := True

instance : Hashing SystemState where
  hashInputs S s := structHashed S "risc0.SystemState" [s.merkleRoot] [s.pc]
  unpruned _ := True

instance : Hashing Input where
  hashInputs _ _ := []
  unpruned _ := True

instance : Hashing Assumption where
  hashInputs S a := structHashed S "risc0.Assumption" [a.claim, a.controlRoot] []
  unpruned _ := True

instance : Hashing Assumptions where
  hashInputs S as := as.list.flatMap (hashInputs S) ++ listHashed S "risc0.Assumptions" (as.list.map (digest S))
  unpruned as := ∀ a ∈ as.list, unpruned a

instance : Hashing Output where
  hashInputs S o := hashInputs S o.journal ++ hashInputs S o.assumptions ++
    structHashed S "risc0.Output" [digest S o.journal, digest S o.assumptions] []
  unpruned o := unpruned o.journal ∧ unpruned o.assumptions

instance : Hashing ReceiptClaim where
  hashInputs S c := hashInputs S c.input ++ hashInputs S c.pre ++ hashInputs S c.post ++ hashInputs S c.output ++
    structHashed S "risc0.ReceiptClaim" [digest S c.input, digest S c.pre, digest S c.post, digest S c.output]
      [c.exitCode.intoPair.1, c.exitCode.intoPair.2]
  unpruned c := unpruned c.input ∧ unpruned c.pre ∧ unpruned c.post ∧ unpruned c.output

instance : Hashing Work where
  hashInputs S w := structHashed S "risc0.Work" [] w.encodeToSeal
  unpruned _ := True

instance [Hashing C] : Hashing (WorkClaim C) where
  hashInputs S w := hashInputs S w.claim ++ hashInputs S w.work ++
    structHashed S "risc0.WorkClaim" [digest S w.claim, digest S w.work] []
  unpruned w := unpruned w.claim ∧ unpruned w.work

end Inputs

variable {T C : Type} {S : Sha256} {D : Set (List Byte)}
variable (S D) in
/-- A value with nothing pruned for which nothing else is hashed. -/
structure Covered [Hashing T] (v : T) : Prop where
  unpruned : unpruned v
  hashed : ∀ bytes ∈ hashInputs S v, bytes ∈ D

variable (T S D) in
/-- The digest of a covered value is the digest of no other. -/
def Binding [Hashing T] : Prop := Set.InjOn (fun v : T => digest S v) {v | Covered S D v}

variable (T S D) in
/-- The digest of a covered value is not that of an absent one. -/
def Present [Hashing T] : Prop := ∀ v : T, Covered S D v → digest S v ≠ .zero

theorem covered_value [Hashing T] {v : T} : Covered S D (.value v : MaybePruned T) ↔ Covered S D v :=
  ⟨fun h => ⟨h.unpruned, h.hashed⟩, fun h => ⟨h.unpruned, h.hashed⟩⟩

theorem covered_some [Hashing T] {v : T} : Covered S D (some v) ↔ Covered S D v :=
  ⟨fun h => ⟨h.unpruned, h.hashed⟩, fun h => ⟨h.unpruned, h.hashed⟩⟩

theorem binding_maybePruned [Hashing T] (h : Binding T S D) : Binding (MaybePruned T) S D := by
  intro x hx y hy hxy
  cases x with
  | pruned _ => exact hx.unpruned.elim
  | value v =>
    cases y with
    | pruned _ => exact hy.unpruned.elim
    | value w => exact congrArg MaybePruned.value (h (covered_value.mp hx) (covered_value.mp hy) hxy)

theorem binding_option [Hashing T] (h : Binding T S D) (hpresent : Present T S D) : Binding (Option T) S D := by
  intro x hx y hy hxy
  cases x with
  | none =>
    cases y with
    | none => rfl
    | some w => exact absurd hxy.symm (hpresent w (covered_some.mp hy))
  | some v =>
    cases y with
    | none => exact absurd hxy (hpresent v (covered_some.mp hx))
    | some w => exact congrArg some (h (covered_some.mp hx) (covered_some.mp hy) hxy)

theorem map_injOn {A B : Type} {f : A → B} {s : Set A} (hf : Set.InjOn f s) : Set.InjOn (List.map f) {l | ∀ a ∈ l, a ∈ s} := by
  intro l hl l' hl' h
  induction l generalizing l' with
  | nil => exact (List.map_eq_nil_iff.mp h.symm).symm
  | cons a l ih =>
    cases l' with
    | nil => cases h
    | cons a' l' =>
      obtain ⟨ha, hrest⟩ := List.cons.inj h
      rw [hf (hl a List.mem_cons_self) (hl' a' List.mem_cons_self) ha,
        ih (fun b hb => hl b (.tail _ hb)) (fun b hb => hl' b (.tail _ hb)) hrest]

theorem Covered.assumption {as : Assumptions} (h : Covered S D as) : ∀ a ∈ as.list, Covered S D a := fun a ha =>
  ⟨h.unpruned a ha, fun _ hmem => h.hashed _ (List.mem_append_left _ (List.mem_flatMap.mpr ⟨a, ha, hmem⟩))⟩

theorem Covered.output {o : Output} (h : Covered S D o) : Covered S D o.journal ∧ Covered S D o.assumptions ∧
    ∀ bytes ∈ structHashed S "risc0.Output" [digest S o.journal, digest S o.assumptions] [], bytes ∈ D := by
  have hhashed := h.hashed
  simp only [hashInputs, List.mem_append, or_imp, forall_and] at hhashed
  exact ⟨⟨h.unpruned.1, hhashed.1.1⟩, ⟨h.unpruned.2, hhashed.1.2⟩, hhashed.2⟩

theorem Covered.receiptClaim {c : ReceiptClaim} (h : Covered S D c) :
    Covered S D c.input ∧ Covered S D c.pre ∧ Covered S D c.post ∧ Covered S D c.output ∧
      ∀ bytes ∈ structHashed S "risc0.ReceiptClaim" [digest S c.input, digest S c.pre, digest S c.post, digest S c.output]
        [c.exitCode.intoPair.1, c.exitCode.intoPair.2], bytes ∈ D := by
  have hhashed := h.hashed
  simp only [hashInputs, List.mem_append, or_imp, forall_and] at hhashed
  obtain ⟨hinput, hpre, hpost, houtput⟩ := h.unpruned
  exact ⟨⟨hinput, hhashed.1.1.1.1⟩, ⟨hpre, hhashed.1.1.1.2⟩, ⟨hpost, hhashed.1.1.2⟩, ⟨houtput, hhashed.1.2⟩, hhashed.2⟩

theorem Covered.workClaim [Hashing C] {w : WorkClaim C} (h : Covered S D w) : Covered S D w.claim ∧ Covered S D w.work ∧
    ∀ bytes ∈ structHashed S "risc0.WorkClaim" [digest S w.claim, digest S w.work] [], bytes ∈ D := by
  have hhashed := h.hashed
  simp only [hashInputs, List.mem_append, or_imp, forall_and] at hhashed
  exact ⟨⟨h.unpruned.1, hhashed.1.1⟩, ⟨h.unpruned.2, hhashed.1.2⟩, hhashed.2⟩

theorem ExitCode.intoPair_injective : Function.Injective ExitCode.intoPair := by
  intro e e' h
  cases e <;> cases e' <;> simp_all [ExitCode.intoPair]

/-- The words of a number with four words of sixteen bits give it back. -/
theorem u64ToU16s_injective : Function.Injective u64ToU16s := by
  intro x y h
  have hlimb (i : ℕ) (hi : i < 4) : (x >>> (16 * i)).setWidth 16 = (y >>> (16 * i)).setWidth 16 := by
    have hget := congrArg (·[i]?) h
    simpa [u64ToU16s, hi] using hget
  refine eq_of_getLsbD_eq fun i hi => ?_
  have hbit := congrArg (getLsbD · (i % 16)) (hlimb (i / 16) (by omega))
  simpa [show i % 16 < 16 by omega, Nat.div_add_mod] using hbit

theorem toU16s_injective : Function.Injective PovwNonce.toU16s := by
  intro n m h
  have hlimb (i : ℕ) (hi : i < 16) : (n.toU256 >>> (16 * i)).setWidth 16 = (m.toU256 >>> (16 * i)).setWidth 16 := by
    have hget := congrArg (·[i]?) h
    simpa [PovwNonce.toU16s, hi] using hget
  refine PovwNonce.toU256_injective (eq_of_getLsbD_eq fun i hi => ?_)
  have hbit := congrArg (getLsbD · (i % 16)) (hlimb (i / 16) (by omega))
  simpa [show i % 16 < 16 by omega, Nat.div_add_mod] using hbit

theorem map_setWidth_injective : Function.Injective (List.map fun limb : BitVec 16 => limb.setWidth 32) :=
  List.map_injective_iff.mpr fun x y h => by
    have hnat := congrArg BitVec.toNat h
    rw [toNat_setWidth, toNat_setWidth, Nat.mod_eq_of_lt (by omega), Nat.mod_eq_of_lt (by omega)] at hnat
    exact eq_of_toNat_eq hnat

theorem Work.encodeToSeal_injective : Function.Injective Work.encodeToSeal := by
  rintro ⟨lo, hi, value⟩ ⟨lo', hi', value'⟩ h
  obtain ⟨hnonces, hvalue⟩ := List.append_inj' h (by simp [u64ToU16s])
  obtain ⟨hlo, hhi⟩ := List.append_inj' hnonces (by simp [PovwNonce.encodeToSeal, PovwNonce.toU16s])
  obtain rfl : lo = lo' := toU16s_injective (map_setWidth_injective hlo)
  obtain rfl : hi = hi' := toU16s_injective (map_setWidth_injective hhi)
  obtain rfl : value = value' := u64ToU16s_injective (map_setWidth_injective hvalue)
  rfl

theorem binding_input : Binding Input S D := fun x _ _ _ _ => x.rec

theorem present_input : Present Input S D := fun x _ => x.rec

section Types

variable (hS : CollisionFree S D)

include hS

theorem binding_bytes : Binding (List Byte) S D :=
  fun v hv w hw h => hS.injOn (hv.hashed v List.mem_cons_self) (hw.hashed w List.mem_cons_self) h

theorem binding_systemState : Binding SystemState S D := by
  intro s hs t ht h
  obtain ⟨-, hroot, hpc⟩ := taggedStruct_inj hS (by simp) (by simp) hs.hashed ht.hashed h
  cases s
  cases t
  cases hroot
  cases hpc
  rfl

theorem binding_assumption : Binding Assumption S D := by
  intro a ha b hb h
  obtain ⟨-, hdown, -⟩ := taggedStruct_inj hS (by simp) (by simp) ha.hashed hb.hashed h
  cases a
  cases b
  cases hdown
  rfl

/-- First the digests of the elements agree, and then each element. -/
theorem binding_assumptions : Binding Assumptions S D := by
  rintro ⟨as⟩ ha ⟨bs⟩ hb h
  have hdigests := taggedList_inj hS (fun _ hmem => ha.hashed _ (List.mem_append_right _ hmem))
    (fun _ hmem => hb.hashed _ (List.mem_append_right _ hmem)) h
  exact congrArg Assumptions.mk (map_injOn (binding_maybePruned (binding_assumption hS)) ha.assumption hb.assumption hdigests)

theorem binding_output : Binding Output S D := by
  rintro ⟨journal, assumptions⟩ ho ⟨journal', assumptions'⟩ ho' h
  obtain ⟨hj, ha, hstruct⟩ := ho.output
  obtain ⟨hj', ha', hstruct'⟩ := ho'.output
  obtain ⟨-, hdown, -⟩ := taggedStruct_inj hS (by simp) (by simp) hstruct hstruct' h
  obtain ⟨hjournal, hdown⟩ := List.cons.inj hdown
  obtain rfl : journal = journal' := binding_maybePruned (binding_bytes hS) hj hj' hjournal
  obtain rfl : assumptions = assumptions' := binding_maybePruned (binding_assumptions hS) ha ha' (List.cons.inj hdown).1
  rfl

theorem present_output : Present Output S D := fun _ ho => taggedStruct_ne_zero hS ho.output.2.2

/-- An absent output has the digest zero, which no output that is present has. -/
theorem binding_receiptClaim : Binding ReceiptClaim S D := by
  rintro ⟨pre, post, exitCode, input, output⟩ hc ⟨pre', post', exitCode', input', output'⟩ hc' h
  obtain ⟨hin, hpre, hpost, hout, hstruct⟩ := hc.receiptClaim
  obtain ⟨hin', hpre', hpost', hout', hstruct'⟩ := hc'.receiptClaim
  obtain ⟨-, hdown, hdata⟩ := taggedStruct_inj hS (by simp) (by simp) hstruct hstruct' h
  obtain ⟨hinputs, hdown⟩ := List.cons.inj hdown
  obtain ⟨hpres, hdown⟩ := List.cons.inj hdown
  obtain ⟨hposts, hdown⟩ := List.cons.inj hdown
  obtain ⟨hsys, hdata⟩ := List.cons.inj hdata
  obtain rfl : input = input' := binding_maybePruned (binding_option binding_input present_input) hin hin' hinputs
  obtain rfl : pre = pre' := binding_maybePruned (binding_systemState hS) hpre hpre' hpres
  obtain rfl : post = post' := binding_maybePruned (binding_systemState hS) hpost hpost' hposts
  obtain rfl : output = output' :=
    binding_maybePruned (binding_option (binding_output hS) (present_output hS)) hout hout' (List.cons.inj hdown).1
  obtain rfl : exitCode = exitCode' := ExitCode.intoPair_injective (Prod.ext hsys (List.cons.inj hdata).1)
  rfl

theorem binding_work : Binding Work S D := by
  intro v hv w hw h
  exact Work.encodeToSeal_injective (taggedStruct_inj hS (by simp) (by simp) hv.hashed hw.hashed h).2.2

theorem binding_workClaim [Hashing C] (hclaims : Binding C S D) : Binding (WorkClaim C) S D := by
  rintro ⟨claim, work⟩ hw ⟨claim', work'⟩ hw' h
  obtain ⟨hc, hwork, hstruct⟩ := hw.workClaim
  obtain ⟨hc', hwork', hstruct'⟩ := hw'.workClaim
  obtain ⟨-, hdown, -⟩ := taggedStruct_inj hS (by simp) (by simp) hstruct hstruct' h
  obtain ⟨hclaim, hdown⟩ := List.cons.inj hdown
  obtain rfl : claim = claim' := binding_maybePruned hclaims hc hc' hclaim
  obtain rfl : work = work' := binding_maybePruned (binding_work hS) hwork hwork' (List.cons.inj hdown).1
  rfl

end Types

variable (S D) in
/-- Structs, lists and claims of which nothing else is hashed have different digests if they are different. -/
structure DigestsBind : Prop where
  taggedStruct : ∀ tag tag' down down' data data', down.length < 2 ^ 16 → down'.length < 2 ^ 16 →
    (∀ bytes ∈ structHashed S tag down data, bytes ∈ D) → (∀ bytes ∈ structHashed S tag' down' data', bytes ∈ D) →
    taggedStruct S tag down data = taggedStruct S tag' down' data' → tag = tag' ∧ down = down' ∧ data = data'
  taggedList : ∀ tag list list', (∀ bytes ∈ listHashed S tag list, bytes ∈ D) → (∀ bytes ∈ listHashed S tag list', bytes ∈ D) →
    taggedList S tag list = taggedList S tag list' → list = list'
  receiptClaim : Binding ReceiptClaim S D
  output : Binding Output S D
  assumptions : Binding Assumptions S D
  workClaim : Binding (WorkClaim ReceiptClaim) S D

theorem digests_bind (S : Sha256) (D : Set (List Byte)) (hS : CollisionFree S D) : DigestsBind S D where
  taggedStruct _ _ _ _ _ _ hdown hdown' hD hD' h := taggedStruct_inj hS hdown hdown' hD hD' h
  taggedList _ _ _ hD hD' h := taggedList_inj hS hD hD' h
  receiptClaim := binding_receiptClaim hS
  output := binding_output hS
  assumptions := binding_assumptions hS
  workClaim := binding_workClaim hS (binding_receiptClaim hS)

/-- A work claim over an execution with an output and an assumption. -/
def boundClaim : WorkClaim ReceiptClaim where
  claim := .value
    { pre := .value ⟨0, .zero⟩
      post := .value ⟨4, .zero⟩
      exitCode := .halted 7
      input := .value none
      output := .value (some ⟨.value [1, 2, 3], .value ⟨[.value ⟨.zero, .zero⟩]⟩⟩) }
  work := .value ⟨⟨0, 0, 0⟩, ⟨0, 0, 1⟩, 5⟩

def lengthAndSum (bytes : List Byte) : Digest :=
  .ofFn fun i => if i.val = 0 then 1 else if i.val = 1 then .ofNat 8 bytes.length else if i.val = 2 then bytes.sum else 0

theorem lengthAndSum_get (bytes : List Byte) : (lengthAndSum bytes).get 0 = 1 ∧
    (lengthAndSum bytes).get 1 = .ofNat 8 bytes.length ∧ (lengthAndSum bytes).get 2 = bytes.sum := by
  simp [lengthAndSum, Vector.get_ofFn]

theorem boundClaim_collisionFree : CollisionFree lengthAndSum {bytes | bytes ∈ hashInputs lengthAndSum boundClaim} where
  injOn b hb c hc h := by
    have hlength := (lengthAndSum_get b).2.1.symm.trans ((congrArg (·.get 1) h).trans (lengthAndSum_get c).2.1)
    have hsum := (lengthAndSum_get b).2.2.symm.trans ((congrArg (·.get 2) h).trans (lengthAndSum_get c).2.2)
    have hpairs : ∀ b ∈ hashInputs lengthAndSum boundClaim, ∀ c ∈ hashInputs lengthAndSum boundClaim,
        BitVec.ofNat 8 b.length = BitVec.ofNat 8 c.length → b.sum = c.sum → b = c := by
      with_unfolding_all (set_option maxRecDepth 100000 in decide)
    exact hpairs b hb c hc hlength hsum
  ne_zero b _ h := by
    have hone := (lengthAndSum_get b).1.symm.trans (congrArg (·.get 0) h)
    exact absurd hone (by decide)

theorem digests_bind_claim : DigestsBind lengthAndSum {bytes | bytes ∈ hashInputs lengthAndSum boundClaim} ∧
    Covered lengthAndSum {bytes | bytes ∈ hashInputs lengthAndSum boundClaim} boundClaim := by
  have hassumptions : ∀ a ∈ [(.value ⟨.zero, .zero⟩ : MaybePruned Assumption)], unpruned a := List.forall_mem_singleton.mpr trivial
  exact ⟨digests_bind _ _ boundClaim_collisionFree, ⟨⟨trivial, trivial, trivial, trivial, hassumptions⟩, trivial⟩, fun _ hmem => hmem⟩

end VerifiableCompute.Claim
