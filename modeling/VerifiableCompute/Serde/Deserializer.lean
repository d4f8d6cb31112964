import VerifiableCompute.Serde.Shape

/-! The deserializer, one definition a method, with the visitors that the types of
each shape pass to it. A visitor of a tuple or a struct asks for exactly the elements
it announced, so only sequences and maps count down. -/

namespace VerifiableCompute.Serde

open Lib Codec

namespace Deserializer

def tryTakeWord : Call Word := do
  let words ← readWords 1
  return words.headD 0

def tryTakeDword : Call (BitVec 64) := do
  let low ← tryTakeWord
  let high ← tryTakeWord
  return low.setWidth 64 ||| high.setWidth 64 <<< 32

def invalidValue (unexp : ℤ) (exp : String) : Failure :=
  .error (.custom ("invalid value: integer `" ++ toString unexp ++ "`, expected " ++ exp))

/-- `visit_i32` of a narrower signed integer: the value must be one of the type. -/
def visitI32 (w : ℕ) (exp : String) (v : Word) : Call (BitVec w) :=
  if -2 ^ (w - 1) ≤ v.toInt ∧ v.toInt < 2 ^ (w - 1) then pure (v.setWidth w) else throw (invalidValue v.toInt exp)

/-- `visit_u32` of a narrower unsigned integer. -/
def visitU32 (w : ℕ) (exp : String) (v : Word) : Call (BitVec w) :=
  if v.toNat < 2 ^ w then pure (v.setWidth w) else throw (invalidValue v.toNat exp)

def deserializeBool : Call Bool := do
  let val ← tryTakeWord
  if val = 0 then
    return false
  else if val = 1 then
    return true
  else throw (.error .deserializeBadBool)

def deserializeI8 : Call (BitVec 8) := do visitI32 8 "i8" (← tryTakeWord)

def deserializeI16 : Call (BitVec 16) := do visitI32 16 "i16" (← tryTakeWord)

def deserializeI32 : Call (BitVec 32) := tryTakeWord

def deserializeI64 : Call (BitVec 64) := tryTakeDword

def deserializeI128 : Call (BitVec 128) := do
  let bytes ← readPaddedBytes 16
  return .ofNat 128 (leNat bytes)

def deserializeU8 : Call (BitVec 8) := do visitU32 8 "u8" (← tryTakeWord)

def deserializeU16 : Call (BitVec 16) := do visitU32 16 "u16" (← tryTakeWord)

def deserializeU32 : Call (BitVec 32) := tryTakeWord

def deserializeU64 : Call (BitVec 64) := tryTakeDword

def deserializeU128 : Call (BitVec 128) := do
  let bytes ← readPaddedBytes 16
  return .ofNat 128 (leNat bytes)

def deserializeF32 : Call (BitVec 32) := tryTakeWord

def deserializeF64 : Call (BitVec 64) := tryTakeDword

def charFromU32 (v : Word) : Option Char :=
  if h : (UInt32.ofBitVec v).isValidChar then some ⟨.ofBitVec v, h⟩ else none

def deserializeChar : Call Char := do
  match charFromU32 (← tryTakeWord) with
  | some c => return c
  | none => throw (.error .deserializeBadChar)

/-- Bad UTF-8 is reported as a bad character. -/
def deserializeStr : Call String := do
  let lenBytes ← tryTakeWord
  let bytes ← readPaddedBytes lenBytes.toNat
  match fromUtf8 bytes with
  | some s => return s
  | none => throw (.error .deserializeBadChar)

def deserializeBytes : Call (List Byte) := do
  let lenBytes ← tryTakeWord
  readPaddedBytes lenBytes.toNat

def deserializeOption {α : Type} (visitSome : Call α) : Call (Option α) := do
  let tag ← tryTakeWord
  if tag = 0 then
    return none
  else if tag = 1 then
    let value ← visitSome
    return some value
  else throw (.error .deserializeBadOption)

def deserializeUnit : Call Unit := pure ()

def deserializeUnitStruct : Call Unit := deserializeUnit

def deserializeNewtypeStruct {α : Type} (visitNewtypeStruct : Call α) : Call α := visitNewtypeStruct

/-- `next_element_seed` gives an element while `len > 0`, and the visitor takes all of them. -/
def deserializeSeq {α : Type} (element : Call α) : Call (List α) := do
  let len ← tryTakeWord
  readMany element len.toNat

def deserializeTuple {α : Type} (visitSeq : Call α) : Call α := visitSeq

def deserializeTupleStruct {α : Type} (visitSeq : Call α) : Call α := deserializeTuple visitSeq

def deserializeMap {α β : Type} (key : Call α) (value : Call β) : Call (List (α × β)) := do
  let len ← tryTakeWord
  readMany (do let k ← key; let v ← value; return (k, v)) len.toNat

def deserializeStruct {α : Type} (visitSeq : Call α) : Call α := deserializeTuple visitSeq

end Deserializer

open Deserializer

mutual

def Shape.deserialize : (s : Shape) → Call s.Val
  | .bool => (deserializeBool : Call Bool)
  | .i8 => (deserializeI8 : Call (BitVec 8))
  | .i16 => (deserializeI16 : Call (BitVec 16))
  | .i32 => (deserializeI32 : Call (BitVec 32))
  | .i64 => (deserializeI64 : Call (BitVec 64))
  | .i128 => (deserializeI128 : Call (BitVec 128))
  | .u8 => (deserializeU8 : Call (BitVec 8))
  | .u16 => (deserializeU16 : Call (BitVec 16))
  | .u32 => (deserializeU32 : Call (BitVec 32))
  | .u64 => (deserializeU64 : Call (BitVec 64))
  | .u128 => (deserializeU128 : Call (BitVec 128))
  | .f32 => (deserializeF32 : Call (BitVec 32))
  | .f64 => (deserializeF64 : Call (BitVec 64))
  | .char => (deserializeChar : Call Char)
  | .str => (deserializeStr : Call String)
  | .bytes => (deserializeBytes : Call (List Byte))
  | .option value => (deserializeOption value.deserialize : Call (Option value.Val))
  | .unit => (deserializeUnit : Call Unit)
  | .unitStruct => (deserializeUnitStruct : Call Unit)
  | .newtypeStruct value => (deserializeNewtypeStruct value.deserialize : Call value.Val)
  | .seq element => (deserializeSeq element.deserialize : Call (List element.Val))
  | .tuple fields => (deserializeTuple fields.deserialize : Call fields.Val)
  | .tupleStruct fields => (deserializeTupleStruct fields.deserialize : Call fields.Val)
  | .map key value => (deserializeMap key.deserialize value.deserialize : Call (List (key.Val × value.Val)))
  | .struct fields => (deserializeStruct fields.deserialize : Call fields.Val)
  | .enum variants => do
    let tag ← tryTakeWord
    let v ← variants.deserialize tag variants.length tag.toNat
    (pure ⟨tag, v⟩ : Call ((variantIndex : Word) × variants.At variantIndex.toNat))

def Fields.deserialize : (fields : Fields) → Call fields.Val
  | .nil => (pure () : Call Unit)
  | .cons field fields => do
    let v ← field.deserialize
    let vs ← fields.deserialize
    (pure (v, vs) : Call (field.Val × fields.Val))

def Variant.deserialize : (variant : Variant) → Call variant.Val
  | .unit => (pure () : Call Unit)
  | .newtype value => value.deserialize
  | .tuple fields => (deserializeTuple fields.deserialize : Call fields.Val)
  | .struct fields => (deserializeTuple fields.deserialize : Call fields.Val)

/-- The tag picks the variant; `len` is the number of variants of the type. -/
def Variants.deserialize (tag : Word) (len : ℕ) : (variants : Variants) → (n : ℕ) → Call (variants.At n)
  | .nil, _ => throw (invalidValue tag.toNat ("variant index 0 <= i < " ++ toString len))
  | .cons variant _, 0 => variant.deserialize
  | .cons _ variants, n + 1 => variants.deserialize tag len n

end

end VerifiableCompute.Serde
