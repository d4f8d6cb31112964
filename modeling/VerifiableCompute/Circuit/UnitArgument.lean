import VerifiableCompute.Circuit.Words
import VerifiableCompute.Rv32im.Instructions

/-! What the computing units say to the instructions that use them: an argument holds the option of an operation,
its operands and its results. Blocks with the same options and operands say the same, and what they say is what the
executor computes. -/

namespace VerifiableCompute.Circuit

open Lib Rv32im

inductive AsKind | add | sub
  deriving DecidableEq

inductive BitKind | xor | or | and
  deriving DecidableEq

inductive MulKind | ss | su | uu
  deriving DecidableEq

inductive DivKind | u | s
  deriving DecidableEq

inductive ShiftKind | ll | rl | ra
  deriving DecidableEq

inductive UnitOp
  | addSub (kind : AsKind)
  | bit (kind : BitKind)
  | lt
  | mul (kind : MulKind)
  | div (kind : DivKind)
  | shift (kind : ShiftKind)
  deriving DecidableEq

def unitKinds : ℕ := 6

namespace UnitOp

def kind : UnitOp → ℕ
  | addSub _ => 0
  | bit _ => 1
  | lt => 2
  | mul _ => 3
  | div _ => 4
  | shift _ => 5

/-- The options that are left once the `UnitKind` is popped. -/
def val : UnitOp → ℕ
  | addSub .add => 0
  | addSub .sub => 1
  | bit .xor => 0
  | bit .or => 1
  | bit .and => 2
  | lt => 0
  | mul .ss => 0
  | mul .su => 1
  | mul .uu => 2
  | div .u => 0
  | div .s => 1
  | shift .ll => 0
  | shift .rl => 1
  | shift .ra => 2

def opts (op : UnitOp) : ℕ := op.val * unitKinds + op.kind

def all : List UnitOp :=
  [addSub .add, addSub .sub, bit .xor, bit .or, bit .and, lt, mul .ss, mul .su, mul .uu, div .u, div .s, shift .ll, shift .rl, shift .ra]

theorem mem_all (op : UnitOp) : op ∈ all := by
  rcases op with k | k | _ | k | k | k
  all_goals first | decide | (cases k <;> decide)

theorem val_le (op : UnitOp) : op.val ≤ 2 := (by decide : ∀ op ∈ all, op.val ≤ 2) op op.mem_all

theorem opts_lt (op : UnitOp) : op.opts < 18 := (by decide : ∀ op ∈ all, op.opts < 18) op op.mem_all

theorem kind_lt (op : UnitOp) : op.kind < unitKinds := (by decide : ∀ op ∈ all, op.kind < unitKinds) op op.mem_all

theorem opts_injective {op op' : UnitOp} (h : op.opts = op'.opts) : op = op' :=
  (by decide : ∀ op ∈ all, ∀ op' ∈ all, op.opts = op'.opts → op = op') op op.mem_all op' op'.mem_all h

/-- The first result. -/
def out0 : UnitOp → Word → Word → Word
  | addSub .add, a, b => a + b
  | addSub .sub, a, b => a - b
  | bit .xor, a, b => a ^^^ b
  | bit .or, a, b => a ||| b
  | bit .and, a, b => a &&& b
  | lt, a, b => ofCond (a.slt b)
  | mul _, a, b => a * b
  | div .u, a, b => if b = 0 then 0xffffffff#32 else a / b
  | div .s, a, b => if b = 0 then 0xffffffff#32 else a.sdiv b
  | shift .ll, a, b => a <<< (b &&& 0x1f#32)
  | shift .rl, a, b => a >>> (b &&& 0x1f#32)
  | shift .ra, a, b => a.sshiftRight' (b &&& 0x1f#32)

/-- The second result. -/
def out1 : UnitOp → Word → Word → Word
  | lt, a, b => ofCond (a.ult b)
  | mul .ss, a, b => upper (a.signExtend 64 * b.signExtend 64)
  | mul .su, a, b => upper (a.signExtend 64 * b.setWidth 64)
  | mul .uu, a, b => upper (a.setWidth 64 * b.setWidth 64)
  | div .u, a, b => if b = 0 then a else a % b
  | div .s, a, b => if b = 0 then a else a.srem b
  | _, _, _ => 0

end UnitOp

@[ext] structure UnitArgument where
  opts : Fp
  aLow : Fp
  aHigh : Fp
  bLow : Fp
  bHigh : Fp
  out0Low : Fp
  out0High : Fp
  out1Low : Fp
  out1High : Fp

namespace UnitArgument

def of (opts : ℕ) (a b out0 out1 : Word) : UnitArgument where
  opts := opts
  aLow := lowHalf a
  aHigh := highHalf a
  bLow := lowHalf b
  bHigh := highHalf b
  out0Low := lowHalf out0
  out0High := highHalf out0
  out1Low := lowHalf out1
  out1High := highHalf out1

def a (arg : UnitArgument) : ValU32 := ⟨arg.aLow, arg.aHigh⟩
def b (arg : UnitArgument) : ValU32 := ⟨arg.bLow, arg.bHigh⟩
def out0 (arg : UnitArgument) : ValU32 := ⟨arg.out0Low, arg.out0High⟩
def out1 (arg : UnitArgument) : ValU32 := ⟨arg.out1Low, arg.out1High⟩

theorem ext_words {x y : UnitArgument} (hopts : x.opts = y.opts) (ha : x.a = y.a) (hb : x.b = y.b) (h0 : x.out0 = y.out0)
    (h1 : x.out1 = y.out1) : x = y :=
  UnitArgument.ext hopts (congrArg ValU32.low ha) (congrArg ValU32.high ha) (congrArg ValU32.low hb) (congrArg ValU32.high hb)
    (congrArg ValU32.low h0) (congrArg ValU32.high h0) (congrArg ValU32.low h1) (congrArg ValU32.high h1)

end UnitArgument

/-- What an operation does with its operands. -/
def UnitOp.argument (op : UnitOp) (a b : Word) : UnitArgument := .of op.opts a b (op.out0 a b) (op.out1 a b)

theorem UnitOp.eq_of_opts {op op' : UnitOp} (h : (op.opts : Fp) = op'.opts) : op = op' := by
  have hlt := op.opts_lt
  have hlt' := op'.opts_lt
  exact opts_injective (natCast_inj_of_lt (by omega) (by omega) h)

/-- An argument is correct if it says what some operation does. -/
def UnitArgument.Correct (arg : UnitArgument) : Prop := ∃ (op : UnitOp) (a b : Word), arg = op.argument a b

/-- A correct argument with the options of an operation says what that operation does. -/
theorem UnitArgument.Correct.of_opts {arg : UnitArgument} {op : UnitOp} (h : arg.Correct) (hopts : arg.opts = op.opts) :
    ∃ a b, arg = op.argument a b := by
  obtain ⟨op', a, b, rfl⟩ := h
  obtain rfl := UnitOp.eq_of_opts hopts
  exact ⟨a, b, rfl⟩

/-- What the emulator records for a use of a unit. -/
structure UnitWitness where
  count : Word
  opts : ℕ
  a : Word
  b : Word
  out0 : Word
  out1 : Word

def UnitOp.witness (op : UnitOp) (count a b : Word) : UnitWitness := ⟨count, op.opts, a, b, op.out0 a b, op.out1 a b⟩

def UnitWitness.popUnitKind (wit : UnitWitness) : ℕ := wit.opts / unitKinds

@[simp] theorem UnitOp.popUnitKind_witness (op : UnitOp) (count a b : Word) : (op.witness count a b).popUnitKind = op.val := by
  have hkind := op.kind_lt
  simp only [UnitWitness.popUnitKind, witness, opts, unitKinds] at hkind ⊢
  omega

section Blocks

variable {B : Type} (satisfied : B → Prop) (argument : B → UnitArgument) (set : UnitWitness → B) (ops : Set UnitOp)

/-- Options and operands determine the argument, whatever elements of the field they are. -/
def Deterministic : Prop :=
  ∀ x y, satisfied x → satisfied y → (argument x).opts = (argument y).opts → (argument x).a = (argument y).a →
    (argument x).b = (argument y).b → argument x = argument y

/-- The argument for two words is that of one of the operations. -/
def Sound : Prop :=
  ∀ x, satisfied x → ∀ a b : Word, (argument x).a = .of a → (argument x).b = .of b → ∃ op ∈ ops, argument x = op.argument a b

/-- The columns that are written for an operation satisfy the constraints and make its argument. -/
def Complete : Prop :=
  ∀ op ∈ ops, ∀ count a b, satisfied (set (op.witness count a b)) ∧ argument (set (op.witness count a b)) = op.argument a b

variable {satisfied argument set ops}

/-- What is written for an operation is the only thing that can be said with its options. -/
theorem sound_of_complete (hdeterministic : Deterministic satisfied argument) (hcomplete : Complete satisfied argument set ops)
    (hopts : ∀ x, satisfied x → ∃ op ∈ ops, (argument x).opts = op.opts) : Sound satisfied argument ops := by
  intro x hx a b ha hb
  obtain ⟨op, hop, hopts⟩ := hopts x hx
  obtain ⟨hwritten, hargument⟩ := hcomplete op hop 1 a b
  refine ⟨op, hop, ?_⟩
  rw [← hargument]
  apply hdeterministic x _ hx hwritten
  · rw [hopts, hargument]
    rfl
  · rw [ha, hargument]
    rfl
  · rw [hb, hargument]
    rfl

end Blocks

end VerifiableCompute.Circuit
