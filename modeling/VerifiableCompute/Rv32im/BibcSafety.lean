import VerifiableCompute.Lib.Runs
import VerifiableCompute.Rv32im.Bibc

/-! When a program of the guest does not panic. Decoding panics on a wrong magic number
or version and on counts that there is no memory for; an operation panics on an index, a
divisor, an operand or a number of coefficients that nothing has checked. -/

namespace VerifiableCompute.Rv32im.Bibc

open Lib List

variable {ε σ α β : Type} {t : σ}

def Quiet (r : Eval σ ε α) (t : σ) : Prop := r t ≠ .error .panicked

theorem quiet_pure (a : α) (t : σ) : Quiet (pure a : Eval σ ε α) t := by
  rintro ⟨⟩

theorem quiet_bind {r : Eval σ ε α} {k : α → Eval σ ε β} :
    Quiet (r >>= k) t ↔ Quiet r t ∧ ∀ a t', r t = .ok (a, t') → Quiet (k a) t' := by
  constructor
  · intro h
    exact ⟨fun hr => h (bind_eq_error.mpr (.inl hr)), fun a t' hr hk => h (bind_eq_error.mpr (.inr ⟨a, t', hr, hk⟩))⟩
  · rintro ⟨hr, hk⟩ h
    rcases bind_eq_error.mp h with h | ⟨a, t', ha, h⟩
    · exact hr h
    · exact hk a t' ha h

theorem quiet_index {o : Option α} {k : α → Eval σ ε β} : Quiet (index o >>= k) t ↔ ∃ a, o = some a ∧ Quiet (k a) t := by
  cases o with
  | none => exact iff_of_false (fun h => h rfl) fun ⟨a, h, _⟩ => by cases h
  | some a =>
    refine ⟨fun h => ⟨a, rfl, h⟩, ?_⟩
    rintro ⟨b, h, hk⟩
    cases h
    exact hk

theorem quiet_check {p : Prop} [Decidable p] {k : Unit → Eval σ ε β} :
    Quiet (check p >>= k) t ↔ p ∧ Quiet (k ()) t := by
  unfold check
  split_ifs with hp
  · exact (and_iff_right hp).symm
  · exact iff_of_false (fun h => h rfl) fun h => hp h.1

theorem quiet_liftIo (x : StateT σ (Except ε) α) (t : σ) : Quiet (liftIo x) t := by
  intro h
  unfold liftIo at h
  split at h <;> cases h

section

variable {host : Host} {stream : List Byte} {k : ℕ → ByteStream ε α}

theorem quiet_readBytes {n : ℕ} {k : List Byte → ByteStream ε α} :
    Quiet (readBytes n >>= k) stream ↔ (n ≤ stream.length → Quiet (k (stream.take n)) (stream.drop n)) := by
  show ((readBytes n : ByteStream ε (List Byte)) stream).bind _ ≠ _ ↔ _
  unfold readBytes
  split_ifs with hlt
  · exact iff_of_true (fun h => by cases h) fun h => absurd h (not_le.mpr hlt)
  · exact (imp_iff_right (not_lt.mp hlt)).symm

theorem quiet_readLe {n : ℕ} :
    Quiet (readLe n >>= k) stream ↔ (n ≤ stream.length → Quiet (k (leNat (stream.take n))) (stream.drop n)) := by
  show Quiet ((readBytes n >>= fun bytes => pure (leNat bytes)) >>= k) stream ↔ _
  rw [bind_assoc]
  exact quiet_readBytes

theorem quiet_readLe_bind (n : ℕ) (hk : ∀ a stream, Quiet (k a) stream) (stream : List Byte) : Quiet (readLe n >>= k) stream :=
  quiet_readLe.mpr fun _ => hk _ _

theorem quiet_op (stream : List Byte) : Quiet (Op.decode : ByteStream ε Op) stream := by
  refine quiet_readLe_bind 8 (fun bits => ?_) stream
  cases OpCode.fromU32 (bits % 2 ^ 4) with
  | none => rintro stream ⟨⟩
  | some code => exact quiet_pure _

theorem quiet_input : ∀ stream, Quiet (Input.decode : ByteStream ε Input) stream :=
  quiet_readLe_bind 8 fun _ => quiet_readLe_bind 4 fun _ => quiet_readLe_bind 2 fun _ =>
    quiet_readLe_bind 2 fun _ => quiet_pure _

theorem quiet_ty : ∀ stream, Quiet (Ty.decode : ByteStream ε Ty) stream :=
  quiet_readLe_bind 8 fun _ => quiet_readLe_bind 8 fun _ => quiet_readLe_bind 8 fun _ =>
    quiet_readLe_bind 8 fun _ => quiet_pure _

theorem quiet_readMany {decode : ByteStream ε β} (h : ∀ stream, Quiet decode stream) (n : ℕ) (stream : List Byte) :
    Quiet (readMany decode n) stream := by
  induction n generalizing stream with
  | zero => exact quiet_pure _ _
  | succ n ih => exact quiet_bind.mpr ⟨h stream, fun _ t' _ => quiet_bind.mpr ⟨ih t', fun _ _ _ => quiet_pure _ _⟩⟩

theorem quiet_sections (stream : List Byte) : Quiet (decodeSections host : ByteStream ε Program) stream ↔
    (16 ≤ stream.length → host.allocates [leNat (stream.take 4), leNat ((stream.drop 4).take 4),
      leNat ((stream.drop 8).take 4), leNat ((stream.drop 12).take 4)]) := by
  have hread (numInputs numTypes numConstants numOps : ℕ) (stream : List Byte) : Quiet (do
      let inputs ← readMany Input.decode numInputs
      let types ← readMany Ty.decode numTypes
      let constants ← readMany (readLe 8) numConstants
      let ops ← readMany Op.decode numOps
      return (⟨inputs, types, constants, ops⟩ : Program) : ByteStream ε Program) stream :=
    quiet_bind.mpr ⟨quiet_readMany quiet_input _ _, fun _ _ _ => quiet_bind.mpr ⟨quiet_readMany quiet_ty _ _, fun _ _ _ =>
      quiet_bind.mpr ⟨quiet_readMany (fun s => by rw [← bind_pure (readLe 8)]; exact quiet_readLe_bind 8 quiet_pure s) _ _,
        fun _ _ _ => quiet_bind.mpr ⟨quiet_readMany quiet_op _ _, fun _ _ _ => quiet_pure _ _⟩⟩⟩⟩
  unfold decodeSections
  simp only [quiet_readLe, quiet_check, hread, and_true, drop_drop, length_drop]
  constructor
  · intro h hle
    exact h (by omega) (by omega) (by omega) (by omega)
  · intro h _ _ _ _
    exact h (by omega)

def field (bytes : List Byte) (offset : ℕ) : ℕ := leNat ((bytes.drop offset).take 4)

/-- As far as the bytes reach, the magic number and the version are right, and there is
memory for vectors of the lengths that follow. -/
def HeaderOk (host : Host) (bytes : List Byte) : Prop :=
  (4 ≤ bytes.length → bytes.take 4 = magicNumber) ∧ (8 ≤ bytes.length → field bytes 4 = 1) ∧
    (24 ≤ bytes.length → host.allocates [field bytes 8, field bytes 12, field bytes 16, field bytes 20])

theorem decode_quiet_iff (bytes : List Byte) :
    Quiet (Program.decode host : ByteStream ε Program) bytes ↔ HeaderOk host bytes := by
  unfold Program.decode HeaderOk field
  simp only [quiet_readBytes, quiet_check, quiet_readLe, quiet_sections, drop_drop, length_drop]
  constructor
  · intro h
    exact ⟨fun hle => (h hle).1, fun hle => ((h (by omega)).2 (by omega)).1,
      fun hle => ((h (by omega)).2 (by omega)).2 (by omega)⟩
  · rintro ⟨hmagic, hversion, hcounts⟩ hle
    exact ⟨hmagic hle, fun hle' => ⟨hversion (by omega), fun hle'' => hcounts (by omega)⟩⟩

end

/-- Rounding up the number of coefficients leaves no 64 bits. -/
def Ty.Rounds (host : Host) (typ : Ty) : Prop := host.overflowChecks → typ.coeffs ≤ 2 ^ 64 - 16

/-- Nothing that an operation accesses or divides by is missing or zero, and there is memory
for what it computes. -/
def Op.Safe (host : Host) (program : Program) (opIndex : ℕ) (regs : List ℤ) (op : Op) : Prop :=
  let lhs := regs.getD op.a 0
  let rhs := regs.getD op.b 0
  let computed := op.a < opIndex ∧ op.b < opIndex
  match op.code with
  | .const => (op.b = 0 ∨ op.a + op.b ≤ program.constants.length) ∧
      ∀ value ∈ constant program.constants op.a op.b, host.holds value
  | .load => ∃ typ, program.types[op.resultType]? = some typ ∧ typ.Rounds host
  | .store => (∃ typ, program.types[op.resultType]? = some typ ∧ typ.Rounds host) ∧ op.b < regs.length
  | .add => computed ∧ host.holds (lhs + rhs)
  | .sub => computed ∧ host.holds (lhs - rhs)
  | .mul => computed ∧ host.holds (lhs * rhs)
  | .rem => computed ∧ rhs ≠ 0 ∧ host.holds (lhs.tmod rhs)
  | .quo => computed ∧ rhs ≠ 0 ∧ host.holds (lhs.tdiv rhs)
  | .inv => computed ∧ rhs ≠ 0 ∧ (host.modInverse (lhs.natAbs % rhs.natAbs) rhs.natAbs).isSome

variable {host : Host} {io : BigIntIO σ ε} {program : Program} {op : Op} {opIndex : ℕ} {regs : List ℤ}

theorem held_isSome (host : Host) (value : ℤ) : (host.held value).isSome ↔ host.holds value := by
  unfold Host.held
  split_ifs with hholds
  · exact iff_of_true rfl hholds
  · exact iff_of_false (fun h => by cases h) hholds

theorem checkedCount_eq_some (typ : Ty) (count : ℕ) :
    typ.checkedCount host.overflowChecks = some count ↔ typ.Rounds host ∧ typ.count = count := by
  unfold Ty.checkedCount Ty.Rounds
  split_ifs with hover
  · exact iff_of_false (fun h => by cases h) fun h => absurd (h.1 hover.1) (not_le.mpr hover.2)
  · rw [Option.some_inj]
    exact (and_iff_right fun hchecks => not_lt.mp fun hlt => hover ⟨hchecks, hlt⟩).symm

theorem constant_isSome (constants : List ℕ) (offset words : ℕ) :
    (constant constants offset words).isSome ↔ words = 0 ∨ offset + words ≤ constants.length := by
  induction words with
  | zero => exact iff_of_true rfl (.inl rfl)
  | succ n ih =>
    have hfold : constant constants offset (n + 1) = (constant constants offset n).bind fun value =>
        constants[offset + n]?.map fun word => value ||| word <<< (64 * n) := by
      unfold constant
      rw [range_succ, foldlM_append]
      show (_ >>= _) = _
      congr 1
      funext value
      exact bind_pure _
    rw [hfold]
    by_cases hlt : offset + n < constants.length
    · have hprev : (constant constants offset n).isSome := ih.mpr (.inr hlt.le)
      obtain ⟨value, hvalue⟩ := Option.isSome_iff_exists.mp hprev
      rw [hvalue, getElem?_eq_getElem hlt]
      exact iff_of_true rfl (.inr hlt)
    · rw [getElem?_eq_none (not_lt.mp hlt)]
      have hnone : ((constant constants offset n).bind fun value =>
          (none : Option ℕ).map fun word => value ||| word <<< (64 * n)) = none := by
        cases constant constants offset n <;> rfl
      rw [hnone]
      exact iff_of_false (fun h => by cases h) (by omega)

theorem operands_eq (hregs : opIndex ≤ regs.length) : operands op opIndex regs =
    if op.a < opIndex ∧ op.b < opIndex then some (regs.getD op.a 0, regs.getD op.b 0) else none := by
  unfold operands
  split_ifs with hlt
  · have ha : op.a < regs.length := hlt.1.trans_le hregs
    have hb : op.b < regs.length := hlt.2.trans_le hregs
    rw [getD_eq_getElem _ _ ha, getD_eq_getElem _ _ hb, getElem?_eq_getElem ha, getElem?_eq_getElem hb]
  · rfl

theorem binary_quiet_iff (host : Host) (op : Op) (t : σ) (hregs : opIndex ≤ regs.length) :
    Quiet (binary host op opIndex regs : Eval σ ε (List ℤ)) t ↔
      (op.a < opIndex ∧ op.b < opIndex) ∧ (arith host op.code (regs.getD op.a 0) (regs.getD op.b 0)).isSome := by
  unfold binary
  rw [quiet_index, operands_eq hregs]
  by_cases hlt : op.a < opIndex ∧ op.b < opIndex
  · rw [if_pos hlt, and_iff_right hlt, Option.isSome_iff_exists]
    constructor
    · rintro ⟨p, hp, hquiet⟩
      cases hp
      obtain ⟨value, hvalue, -⟩ := quiet_index.mp hquiet
      exact ⟨value, hvalue⟩
    · rintro ⟨value, hvalue⟩
      refine ⟨_, rfl, quiet_index.mpr ⟨value, hvalue, ?_⟩⟩
      cases value <;> rintro ⟨⟩
  · rw [if_neg hlt]
    exact iff_of_false (fun ⟨_, h, _⟩ => by cases h) fun h => hlt h.1

theorem divided_isSome (f : ℤ → ℤ → ℤ) (lhs rhs : ℤ) :
    ((divided host f lhs rhs).map fun value => (Except.ok value : Except String ℤ)).isSome ↔
      rhs ≠ 0 ∧ host.holds (f lhs rhs) := by
  rw [Option.isSome_map]
  unfold divided
  split_ifs with hzero
  · exact iff_of_false (fun h => by cases h) fun h => h.1 hzero
  · exact (held_isSome host _).trans (and_iff_right hzero).symm

theorem evalOp_quiet_iff (hregs : opIndex ≤ regs.length) :
    Quiet (program.evalOp host io op opIndex regs) t ↔ op.Safe host program opIndex regs := by
  obtain ⟨code, resultType, a, b⟩ := op
  have hbinary := binary_quiet_iff (ε := ε) host ⟨code, resultType, a, b⟩ t hregs
  have hheld (value : ℤ) : ((host.held value).map fun value => (Except.ok value : Except String ℤ)).isSome ↔
      host.holds value := by
    rw [Option.isSome_map]
    exact held_isSome host value
  cases code with
  | const =>
    refine quiet_index.trans ?_
    rw [Op.Safe, ← constant_isSome, Option.isSome_iff_exists]
    constructor
    · rintro ⟨word, hword, hquiet⟩
      obtain ⟨value, hvalue, -⟩ := quiet_index.mp hquiet
      refine ⟨⟨word, hword⟩, fun word' hword' => ?_⟩
      cases Option.some.inj (hword.symm.trans hword')
      exact (held_isSome host word).mp (Option.isSome_iff_exists.mpr ⟨value, hvalue⟩)
    · rintro ⟨⟨word, hword⟩, hholds⟩
      obtain ⟨value, hvalue⟩ := Option.isSome_iff_exists.mp ((held_isSome host word).mpr (hholds word hword))
      exact ⟨word, hword, quiet_index.mpr ⟨value, hvalue, quiet_pure _ _⟩⟩
  | load =>
    refine quiet_index.trans (exists_congr fun typ => and_congr_right fun _ => quiet_index.trans ?_)
    constructor
    · rintro ⟨count, hcount, -⟩
      exact ((checkedCount_eq_some typ count).mp hcount).1
    · intro hrounds
      exact ⟨_, (checkedCount_eq_some typ _).mpr ⟨hrounds, rfl⟩,
        quiet_bind.mpr ⟨quiet_liftIo _ _, fun _ _ _ => quiet_pure _ _⟩⟩
  | store =>
    refine quiet_index.trans ?_
    constructor
    · rintro ⟨typ, htyp, hquiet⟩
      obtain ⟨count, hcount, hquiet⟩ := quiet_index.mp hquiet
      obtain ⟨value, hvalue, -⟩ := quiet_index.mp hquiet
      exact ⟨⟨typ, htyp, ((checkedCount_eq_some typ count).mp hcount).1⟩, (List.getElem?_eq_some_iff.mp hvalue).1⟩
    · rintro ⟨⟨typ, htyp, hrounds⟩, hlt⟩
      exact ⟨typ, htyp, quiet_index.mpr ⟨_, (checkedCount_eq_some typ _).mpr ⟨hrounds, rfl⟩,
        quiet_index.mpr ⟨_, getElem?_eq_getElem hlt, quiet_bind.mpr ⟨quiet_liftIo _ _, fun _ _ _ => quiet_pure _ _⟩⟩⟩⟩
  | add | sub | mul => exact hbinary.trans (and_congr_right' (hheld _))
  | rem | quo => exact hbinary.trans (and_congr_right' (divided_isSome _ _ _))
  | inv =>
    refine hbinary.trans (and_congr_right' ?_)
    unfold arith
    dsimp only
    split_ifs with hzero
    · exact iff_of_false (fun h => by cases h) fun h => h.1 (Int.natAbs_eq_zero.mp hzero)
    · rw [Option.isSome_map]
      exact (and_iff_right fun h => hzero (Int.natAbs_eq_zero.mpr h)).symm

theorem index_bind_ok {o : Option α} {k : α → Eval σ ε β} {r : β × σ} :
    (index o >>= k) t = .ok r ↔ ∃ a, o = some a ∧ k a t = .ok r := by
  cases o with
  | none => exact iff_of_false (fun h => by cases h) fun ⟨a, h, _⟩ => by cases h
  | some a =>
    refine ⟨fun h => ⟨a, rfl, h⟩, ?_⟩
    rintro ⟨b, h, hk⟩
    cases h
    exact hk

theorem liftIo_ok {x : StateT σ (Except ε) α} {r : α × σ} (h : liftIo x t = .ok r) : x t = .ok r := by
  unfold liftIo at h
  split at h
  · cases h
  · rename_i hx
    cases h
    exact hx

theorem binary_ok {regs' : List ℤ} {t' : σ}
    (h : binary host op opIndex regs t = (.ok (regs', t') : Except (Stop ε) (List ℤ × σ))) : ∃ value, regs' = regs.set opIndex value ∧ t' = t := by
  obtain ⟨⟨lhs, rhs⟩, -, h⟩ := index_bind_ok.mp h
  obtain ⟨value, -, h⟩ := index_bind_ok.mp h
  cases value with
  | error message => cases h
  | ok value =>
    cases h
    exact ⟨value, rfl, rfl⟩

/-- What an operation leaves: all but a store write one register, and only loads and stores act outside. -/
inductive Evaluated (io : BigIntIO σ ε) (program : Program) (op : Op) (opIndex : ℕ) (regs : List ℤ) (t : σ) :
    List ℤ → σ → Prop where
  | computes (value : ℤ) (hload : op.code ≠ .load) (hstore : op.code ≠ .store) :
      Evaluated io program op opIndex regs t (regs.set opIndex value) t
  | loads {typ : Ty} {value : ℕ} {t' : σ} (hcode : op.code = .load) (htyp : program.types[op.resultType]? = some typ)
      (hload : io.load op.arena op.offset typ.count t = .ok (value, t')) :
      Evaluated io program op opIndex regs t (regs.set opIndex value) t'
  | stores {typ : Ty} {value : ℤ} {t' : σ} (hcode : op.code = .store) (htyp : program.types[op.resultType]? = some typ)
      (hstore : io.store op.arena op.offset typ.count value.natAbs t = .ok ((), t')) :
      Evaluated io program op opIndex regs t regs t'

theorem evalOp_ok {regs' : List ℤ} {t' : σ} (h : program.evalOp host io op opIndex regs t = .ok (regs', t')) :
    Evaluated io program op opIndex regs t regs' t' := by
  unfold Program.evalOp at h
  cases hcode : op.code with
  | const =>
    rw [hcode] at h
    obtain ⟨word, -, h⟩ := index_bind_ok.mp h
    obtain ⟨value, -, h⟩ := index_bind_ok.mp h
    cases h
    exact .computes value (by rw [hcode]; decide) (by rw [hcode]; decide)
  | load =>
    rw [hcode] at h
    obtain ⟨typ, htyp, h⟩ := index_bind_ok.mp h
    obtain ⟨count, hcount, h⟩ := index_bind_ok.mp h
    obtain ⟨-, rfl⟩ := (checkedCount_eq_some typ count).mp hcount
    obtain ⟨value, t'', hload, h⟩ := bind_eq_ok.mp h
    cases h
    exact .loads hcode htyp (liftIo_ok hload)
  | store =>
    rw [hcode] at h
    obtain ⟨typ, htyp, h⟩ := index_bind_ok.mp h
    obtain ⟨count, hcount, h⟩ := index_bind_ok.mp h
    obtain ⟨-, rfl⟩ := (checkedCount_eq_some typ count).mp hcount
    obtain ⟨value, -, h⟩ := index_bind_ok.mp h
    obtain ⟨⟨⟩, t'', hstore, h⟩ := bind_eq_ok.mp h
    cases h
    exact .stores hcode htyp (liftIo_ok hstore)
  | add | sub | mul | rem | quo | inv =>
    rw [hcode] at h
    obtain ⟨value, rfl, rfl⟩ := binary_ok h
    exact .computes value (by rw [hcode]; decide) (by rw [hcode]; decide)

theorem evalOp_regs {regs' : List ℤ} {t' : σ} (h : program.evalOp host io op opIndex regs t = .ok (regs', t')) :
    regs'.length = regs.length := by
  cases evalOp_ok h with
  | computes value _ _ => exact length_set
  | loads _ _ _ => exact length_set
  | stores _ _ _ => rfl

/-- The states before the operations of a run: how many have been evaluated, the
registers, and the state of what the program runs in. -/
inductive Reached (host : Host) (io : BigIntIO σ ε) (program : Program) (t₀ : σ) : ℕ → List ℤ → σ → Prop where
  | start : Reached host io program t₀ 0 (List.replicate program.ops.length 0) t₀
  | next {opIndex : ℕ} {regs regs' : List ℤ} {t t' : σ} {op : Op} (h : Reached host io program t₀ opIndex regs t)
      (hop : program.ops[opIndex]? = some op)
      (heval : program.evalOp host io op opIndex regs t = .ok (regs', t')) :
      Reached host io program t₀ (opIndex + 1) regs' t'

variable {t₀ : σ}

section

variable (h : Reached host io program t₀ opIndex regs t)

include h

theorem Reached.length : regs.length = program.ops.length := by
  induction h with
  | start => exact length_replicate
  | next h hop heval ih => rw [evalOp_regs heval, ih]

theorem Reached.eval : program.evalFrom host io 0 program.ops (List.replicate program.ops.length 0) t₀ =
    program.evalFrom host io opIndex (program.ops.drop opIndex) regs t := by
  induction h with
  | start => rfl
  | next h hop heval ih =>
    obtain ⟨hlt, rfl⟩ := List.getElem?_eq_some_iff.mp hop
    rw [ih, drop_eq_getElem_cons hlt, Program.evalFrom]
    show (Program.evalOp _ _ _ _ _ _ _).bind _ = _
    rw [heval]
    rfl

theorem Reached.safe (hop : program.ops[opIndex]? = some op)
    (hquiet : Quiet (program.evalFrom host io 0 program.ops (List.replicate program.ops.length 0)) t₀) :
    op.Safe host program opIndex regs := by
  obtain ⟨hlt, rfl⟩ := List.getElem?_eq_some_iff.mp hop
  unfold Quiet at hquiet
  rw [h.eval, drop_eq_getElem_cons hlt, Program.evalFrom] at hquiet
  exact (evalOp_quiet_iff (h.length ▸ hlt.le)).mp (quiet_bind.mp hquiet).1

end

/-- Every operation that the run comes to is safe in the registers before it. -/
def RunSafe (host : Host) (io : BigIntIO σ ε) (program : Program) (t₀ : σ) : Prop :=
  ∀ opIndex regs t op, Reached host io program t₀ opIndex regs t → program.ops[opIndex]? = some op →
    op.Safe host program opIndex regs

theorem Reached.quiet (hsafe : RunSafe host io program t₀) (ops : List Op)
    (h : Reached host io program t₀ opIndex regs t) (hops : program.ops.drop opIndex = ops) :
    Quiet (program.evalFrom host io opIndex ops regs) t := by
  induction ops generalizing opIndex regs t with
  | nil => exact quiet_pure _ _
  | cons op ops ih =>
    have hop : program.ops[opIndex]? = some op := by
      rw [← head?_drop, hops, head?_cons]
    have hlt : opIndex < program.ops.length := (List.getElem?_eq_some_iff.mp hop).1
    refine quiet_bind.mpr ⟨(evalOp_quiet_iff (h.length ▸ hlt.le)).mpr (hsafe opIndex regs t op h hop), ?_⟩
    intro regs' t' heval
    refine ih (h.next hop heval) ?_
    rw [← tail_drop, hops, tail_cons]

theorem eval_quiet_iff : Quiet (program.eval host io) t₀ ↔
    host.allocates (program.lengths ++ [program.ops.length]) ∧ RunSafe host io program t₀ := by
  refine quiet_check.trans (and_congr_right fun _ => ⟨?_, fun hsafe => Reached.start.quiet hsafe program.ops rfl⟩)
  intro hquiet opIndex regs t op h hop
  exact h.safe hop hquiet

/-- A program of the guest does not panic exactly when its header is right as far as it
reaches, there is memory for its vectors, and every operation that it comes to is safe. -/
theorem guest_program_panics_iff (host : Host) (io : BigIntIO σ ε) (bytes : List Byte) (t₀ : σ) :
    runProgram host io bytes t₀ ≠ .error .panicked ↔ HeaderOk host bytes ∧
      ∀ program rest, (Program.decode host : ByteStream ε Program) bytes = .ok (program, rest) →
        host.allocates (program.lengths ++ [program.ops.length]) ∧ RunSafe host io program t₀ := by
  have hrun : runProgram host io bytes t₀ = ((Program.decode host : ByteStream ε Program) bytes).bind fun r =>
      r.1.eval host io t₀ := by
    show ((StateT.lift ((Program.decode host : ByteStream ε Program) bytes) : Eval σ ε (Program × List Byte)) t₀).bind _ = _
    cases (Program.decode host : ByteStream ε Program) bytes <;> rfl
  have hheader : Quiet (Program.decode host : ByteStream ε Program) bytes ↔ HeaderOk host bytes := decode_quiet_iff bytes
  rw [hrun, ← hheader]
  unfold Quiet
  cases (Program.decode host : ByteStream ε Program) bytes with
  | error e =>
    constructor
    · intro hne
      exact ⟨fun h => hne (congrArg _ (Except.error.inj h)), fun program rest h => by cases h⟩
    · rintro ⟨hne, -⟩ h
      exact hne (congrArg _ (Except.error.inj h))
  | ok r =>
    rw [and_iff_right fun h => by cases h]
    refine eval_quiet_iff.trans ⟨fun hsafe program rest h => ?_, fun h => h r.1 r.2 rfl⟩
    cases h
    exact hsafe

/-- A well-formed program that divides the constant zero by itself. -/
def zeroQuotient : List Byte :=
  magicNumber ++ [1, 0, 0, 0] ++ [0, 0, 0, 0] ++ [0, 0, 0, 0] ++ [0, 0, 0, 0] ++ [2, 0, 0, 0] ++
    [0x02, 0, 0, 0, 0, 0, 0, 0] ++ [0x0c, 0, 0, 0, 0, 0, 0, 0]

/-- Loads zero and stores nothing. -/
def zeroIo : BigIntIO Unit Unit where
  load _ _ _ := pure 0
  store _ _ _ _ := pure ()

theorem guest_program_panics : ¬ ∀ bytes : List Byte, runProgram largeHost zeroIo bytes () ≠ .error .panicked := by
  intro h
  exact h zeroQuotient (by decide)

end VerifiableCompute.Rv32im.Bibc
