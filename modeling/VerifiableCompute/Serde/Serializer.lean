import VerifiableCompute.Serde.Shape

/-! The serializer, one definition a method, and the calls that a value of each
shape makes on it. -/

namespace VerifiableCompute.Serde

open Lib Codec

namespace Serializer

def serializeU32 (v : Word) : Call Unit := writeWords [v]

def serializeU8 (v : BitVec 8) : Call Unit := serializeU32 (v.setWidth 32)

def serializeU16 (v : BitVec 16) : Call Unit := serializeU32 (v.setWidth 32)

def serializeU64 (v : BitVec 64) : Call Unit := do
  serializeU32 ((v &&& 0xFFFFFFFF).setWidth 32)
  serializeU32 ((v >>> 32 &&& 0xFFFFFFFF).setWidth 32)

def serializeU128 (v : BitVec 128) : Call Unit := writePaddedBytes (leBytes 16 v.toNat)

def serializeBool (v : Bool) : Call Unit := serializeU8 (if v then 1 else 0)

def serializeI32 (v : BitVec 32) : Call Unit := serializeU32 v

def serializeI8 (v : BitVec 8) : Call Unit := serializeI32 (v.signExtend 32)

def serializeI16 (v : BitVec 16) : Call Unit := serializeI32 (v.signExtend 32)

def serializeI64 (v : BitVec 64) : Call Unit := serializeU64 v

def serializeI128 (v : BitVec 128) : Call Unit := serializeU128 v

def serializeF32 (bits : BitVec 32) : Call Unit := serializeU32 bits

def serializeF64 (bits : BitVec 64) : Call Unit := serializeU64 bits

def serializeChar (v : Char) : Call Unit := serializeU32 v.val.toBitVec

/-- The length is cast, which drops its high bits. -/
def serializeBytes (v : List Byte) : Call Unit := do
  serializeU32 (.ofNat 32 v.length)
  writePaddedBytes v

def serializeStr (v : String) : Call Unit := do
  let bytes := utf8Bytes v
  serializeU32 (.ofNat 32 bytes.length)
  writePaddedBytes bytes

def serializeNone : Call Unit := serializeU32 0

def serializeSome (value : Call Unit) : Call Unit := do
  serializeU32 1
  value

def serializeUnit : Call Unit := pure ()

def serializeUnitStruct : Call Unit := pure ()

def serializeNewtypeStruct (value : Call Unit) : Call Unit := value

def serializeUnitVariant (variantIndex : Word) : Call Unit := serializeU32 variantIndex

def serializeNewtypeVariant (variantIndex : Word) (value : Call Unit) : Call Unit := do
  serializeU32 variantIndex
  value

/-- `val.try_into().unwrap()` into a `u32`. -/
def wordOfLength (val : ℕ) : Call Word := if val < 2 ^ 32 then pure (.ofNat 32 val) else throw .panic

def serializeSeq : Option ℕ → Call Unit
  | some val => do serializeU32 (← wordOfLength val)
  | none => throw (.error .notSupported)

def serializeTuple (_len : ℕ) : Call Unit := pure ()

def serializeTupleStruct (_len : ℕ) : Call Unit := pure ()

def serializeTupleVariant (variantIndex : Word) (_len : ℕ) : Call Unit := serializeU32 variantIndex

def serializeMap : Option ℕ → Call Unit
  | some val => do serializeU32 (← wordOfLength val)
  | none => throw (.error .notSupported)

def serializeStruct (_len : ℕ) : Call Unit := pure ()

def serializeStructVariant (variantIndex : Word) (_len : ℕ) : Call Unit := serializeU32 variantIndex

end Serializer

open Serializer

def Fields.length : Fields → ℕ
  | .nil => 0
  | .cons _ fields => fields.length + 1

mutual

/-- Sequences and maps give their length, as the collections of the standard library do. -/
def Shape.serialize : (s : Shape) → s.Val → Call Unit
  | .bool, (v : Bool) => serializeBool v
  | .i8, (v : BitVec 8) => serializeI8 v
  | .i16, (v : BitVec 16) => serializeI16 v
  | .i32, (v : BitVec 32) => serializeI32 v
  | .i64, (v : BitVec 64) => serializeI64 v
  | .i128, (v : BitVec 128) => serializeI128 v
  | .u8, (v : BitVec 8) => serializeU8 v
  | .u16, (v : BitVec 16) => serializeU16 v
  | .u32, (v : BitVec 32) => serializeU32 v
  | .u64, (v : BitVec 64) => serializeU64 v
  | .u128, (v : BitVec 128) => serializeU128 v
  | .f32, (v : BitVec 32) => serializeF32 v
  | .f64, (v : BitVec 64) => serializeF64 v
  | .char, (v : Char) => serializeChar v
  | .str, (v : String) => serializeStr v
  | .bytes, (v : List Byte) => serializeBytes v
  | .option value, (v : Option value.Val) => match v with
    | none => serializeNone
    | some v => serializeSome (value.serialize v)
  | .unit, _ => serializeUnit
  | .unitStruct, _ => serializeUnitStruct
  | .newtypeStruct value, (v : value.Val) => serializeNewtypeStruct (value.serialize v)
  | .seq element, (v : List element.Val) => do
    serializeSeq (some v.length)
    writeEach element.serialize v
  | .tuple fields, (v : fields.Val) => do
    serializeTuple fields.length
    fields.serialize v
  | .tupleStruct fields, (v : fields.Val) => do
    serializeTupleStruct fields.length
    fields.serialize v
  | .map key value, (v : List (key.Val × value.Val)) => do
    serializeMap (some v.length)
    writeEach (fun e => do key.serialize e.1; value.serialize e.2) v
  | .struct fields, (v : fields.Val) => do
    serializeStruct fields.length
    fields.serialize v
  | .enum variants, (v : (variantIndex : Word) × variants.At variantIndex.toNat) =>
    variants.serialize v.1 v.1.toNat v.2

def Fields.serialize : (fields : Fields) → fields.Val → Call Unit
  | .nil, _ => pure ()
  | .cons field fields, (v : field.Val × fields.Val) => do
    field.serialize v.1
    fields.serialize v.2

def Variant.serialize (variantIndex : Word) : (variant : Variant) → variant.Val → Call Unit
  | .unit, _ => serializeUnitVariant variantIndex
  | .newtype value, (v : value.Val) => serializeNewtypeVariant variantIndex (value.serialize v)
  | .tuple fields, (v : fields.Val) => do
    serializeTupleVariant variantIndex fields.length
    fields.serialize v
  | .struct fields, (v : fields.Val) => do
    serializeStructVariant variantIndex fields.length
    fields.serialize v

def Variants.serialize (variantIndex : Word) : (variants : Variants) → (n : ℕ) → variants.At n → Call Unit
  | .nil, _, v => nomatch (v : Empty)
  | .cons variant _, 0, (v : variant.Val) => variant.serialize variantIndex v
  | .cons _ variants, n + 1, (v : variants.At n) => variants.serialize variantIndex n v

end

def toVec (s : Shape) (value : s.Val) : Except Failure (List Word) := Prod.snd <$> s.serialize value []

end VerifiableCompute.Serde
