import VerifiableCompute.Lib.Bytes

/-! The programs that compute the witness of the big integer call. A program is decoded
from bytes of the guest and evaluated over a register for each of its operations,
with loads and stores that are left to what it runs in. -/

namespace VerifiableCompute.Rv32im.Bibc

open Lib

/-- Why a program stops. To run out of memory for a vector or a number ends the executor as
a panic does. -/
inductive Stop (ε : Type) where
  | io (e : ε)
  | unexpectedEof
  | bail (message : String)
  | panicked
  deriving DecidableEq

/-- What the executor is built with and has memory for: the vectors of inputs, types,
constants, operations and registers by their lengths, the numbers that it computes, and the
inverse of a number modulo another, where there is one, which may panic. -/
structure Host where
  overflowChecks : Bool
  allocates : List ℕ → Bool
  holds : ℤ → Bool
  modInverse : ℕ → ℕ → Option (Option ℕ)

/-- A number there is memory for. -/
def Host.held (host : Host) (value : ℤ) : Option ℤ := if host.holds value then some value else none

/-- Memory for everything, and no inverses. -/
def largeHost : Host := ⟨true, fun _ => true, fun _ => true, fun _ _ => some none⟩

inductive OpCode where
  | const
  | load
  | store
  | add
  | sub
  | mul
  | rem
  | quo
  | inv
  deriving DecidableEq

def OpCode.fromU32 : ℕ → Option OpCode
  | 0x2 => some .const
  | 0x3 => some .load
  | 0x4 => some .store
  | 0x8 => some .add
  | 0x9 => some .sub
  | 0xA => some .mul
  | 0xB => some .rem
  | 0xC => some .quo
  | 0xE => some .inv
  | _ => none

structure Op where
  code : OpCode
  resultType : ℕ
  a : ℕ
  b : ℕ
  deriving DecidableEq

def Op.arena (op : Op) : ℕ := op.a / 2 ^ 16

def Op.offset (op : Op) : ℕ := op.a % 2 ^ 16

structure Input where
  label : ℕ
  bitWidth : ℕ
  minBits : ℕ
  isPublic : Bool
  deriving DecidableEq

structure Ty where
  coeffs : ℕ
  maxPos : ℕ
  maxNeg : ℕ
  minBits : ℕ
  deriving DecidableEq

/-- The number of coefficients that are loaded and stored, in the width of a count. -/
def Ty.count (typ : Ty) : ℕ := (typ.coeffs + 15) / 16 * 16 % 2 ^ 32

/-- Rounding up to the next multiple panics when it leaves 64 bits and overflow is checked. -/
def Ty.checkedCount (overflowChecks : Bool) (typ : Ty) : Option ℕ :=
  if overflowChecks ∧ 2 ^ 64 - 16 < typ.coeffs then none else some typ.count

structure Program where
  inputs : List Input
  types : List Ty
  constants : List ℕ
  ops : List Op
  deriving DecidableEq

variable {ε σ α β : Type}

abbrev Eval (σ ε : Type) := StateT σ (Except (Stop ε))

abbrev ByteStream (ε : Type) := Eval (List Byte) ε

def readBytes (n : ℕ) : ByteStream ε (List Byte) := fun stream =>
  if stream.length < n then .error .unexpectedEof else .ok (stream.take n, stream.drop n)

def readLe (n : ℕ) : ByteStream ε ℕ := do
  let bytes ← readBytes n
  return leNat bytes

def check (p : Prop) [Decidable p] : Eval σ ε Unit := if p then pure () else throw .panicked

def Op.decode : ByteStream ε Op := do
  let bits ← readLe 8
  match OpCode.fromU32 (bits % 2 ^ 4) with
  | none => throw (.bail "Invalid BigInt2 bytecode")
  | some code => return ⟨code, bits / 2 ^ 4 % 2 ^ 12, bits / 2 ^ 16 % 2 ^ 24, bits / 2 ^ 40 % 2 ^ 24⟩

def Input.decode : ByteStream ε Input := do
  let label ← readLe 8
  let bitWidth ← readLe 4
  let minBits ← readLe 2
  let isPublic ← readLe 2
  return ⟨label, bitWidth, minBits, isPublic ≠ 0⟩

def Ty.decode : ByteStream ε Ty := do
  let coeffs ← readLe 8
  let maxPos ← readLe 8
  let maxNeg ← readLe 8
  let minBits ← readLe 8
  return ⟨coeffs, maxPos, maxNeg, minBits⟩

def readMany (decode : ByteStream ε α) : ℕ → ByteStream ε (List α)
  | 0 => pure []
  | n + 1 => do
    let a ← decode
    let l ← readMany decode n
    return a :: l

def magicNumber : List Byte := [0x62, 0x69, 0x62, 0x63]

/-- What follows the magic number and the version. -/
def decodeSections (host : Host) : ByteStream ε Program := do
  let numInputs ← readLe 4
  let numTypes ← readLe 4
  let numConstants ← readLe 4
  let numOps ← readLe 4
  check (host.allocates [numInputs, numTypes, numConstants, numOps])
  let inputs ← readMany Input.decode numInputs
  let types ← readMany Ty.decode numTypes
  let constants ← readMany (readLe 8) numConstants
  let ops ← readMany Op.decode numOps
  return ⟨inputs, types, constants, ops⟩

def Program.decode (host : Host) : ByteStream ε Program := do
  let magic ← readBytes 4
  check (magic = magicNumber)
  let version ← readLe 4
  check (version = 1)
  decodeSections host

structure BigIntIO (σ ε : Type) where
  load : (arena offset count : ℕ) → StateT σ (Except ε) ℕ
  store : (arena offset count value : ℕ) → StateT σ (Except ε) Unit

def liftIo (x : StateT σ (Except ε) α) : Eval σ ε α := fun s =>
  match x s with
  | .error e => .error (.io e)
  | .ok r => .ok r

/-- An access that panics when it is out of range. -/
def index (o : Option α) : Eval σ ε α :=
  match o with
  | none => throw .panicked
  | some a => pure a

/-- The words of a constant, the least significant first. -/
def constant (constants : List ℕ) (offset words : ℕ) : Option ℕ :=
  (List.range words).foldlM (fun value i => constants[offset + i]?.map fun word => value ||| word <<< (64 * i)) 0

/-- Both operands have been computed before. -/
def operands (op : Op) (opIndex : ℕ) (regs : List ℤ) : Option (ℤ × ℤ) :=
  if op.a < opIndex ∧ op.b < opIndex then
    match regs[op.a]?, regs[op.b]? with
    | some lhs, some rhs => some (lhs, rhs)
    | _, _ => none
  else none

/-- A quotient or remainder, which panics when the divisor is zero. -/
def divided (host : Host) (f : ℤ → ℤ → ℤ) (lhs rhs : ℤ) : Option ℤ :=
  if rhs = 0 then none else host.held (f lhs rhs)

/-- What an operation on registers yields, with the message when there is no value. -/
def arith (host : Host) (code : OpCode) (lhs rhs : ℤ) : Option (Except String ℤ) :=
  match code with
  | .add => (host.held (lhs + rhs)).map .ok
  | .sub => (host.held (lhs - rhs)).map .ok
  | .mul => (host.held (lhs * rhs)).map .ok
  | .rem => (divided host Int.tmod lhs rhs).map .ok
  | .quo => (divided host Int.tdiv lhs rhs).map .ok
  | .inv =>
    if rhs.natAbs = 0 then none
    else
      (host.modInverse (lhs.natAbs % rhs.natAbs) rhs.natAbs).map fun inverse =>
        match inverse with
        | none => .error "divide by zero"
        | some value => .ok value
  | _ => none

def binary (host : Host) (op : Op) (opIndex : ℕ) (regs : List ℤ) : Eval σ ε (List ℤ) := do
  let (lhs, rhs) ← index (operands op opIndex regs)
  let value ← index (arith host op.code lhs rhs)
  match value with
  | .error message => throw (.bail message)
  | .ok value => return regs.set opIndex value

namespace Program

variable (host : Host) (io : BigIntIO σ ε) (program : Program)

def evalOp (op : Op) (opIndex : ℕ) (regs : List ℤ) : Eval σ ε (List ℤ) :=
  match op.code with
  | .const => do
    let word ← index (constant program.constants op.a op.b)
    let value ← index (host.held word)
    return regs.set opIndex value
  | .load => do
    let typ ← index program.types[op.resultType]?
    let count ← index (typ.checkedCount host.overflowChecks)
    let value ← liftIo (io.load op.arena op.offset count)
    return regs.set opIndex value
  | .store => do
    let typ ← index program.types[op.resultType]?
    let count ← index (typ.checkedCount host.overflowChecks)
    let value ← index regs[op.b]?
    liftIo (io.store op.arena op.offset count value.natAbs)
    return regs
  | _ => binary host op opIndex regs

def evalFrom : ℕ → List Op → List ℤ → Eval σ ε Unit
  | _, [], _ => pure ()
  | opIndex, op :: ops, regs => do
    let regs ← evalOp host io program op opIndex regs
    evalFrom (opIndex + 1) ops regs

def lengths : List ℕ := [program.inputs.length, program.types.length, program.constants.length, program.ops.length]

def eval : Eval σ ε Unit := do
  check (host.allocates (program.lengths ++ [program.ops.length]))
  evalFrom host io program 0 program.ops (List.replicate program.ops.length 0)

end Program

/-- Decodes a program and evaluates it. -/
def runProgram (host : Host) (io : BigIntIO σ ε) (bytes : List Byte) : Eval σ ε Unit := do
  let (program, _) ← StateT.lift (Program.decode host bytes)
  program.eval host io

end VerifiableCompute.Rv32im.Bibc
