import VerifiableCompute.Serde.Words

/-! The shapes of the data model and, for each shape, its values. A value is well
formed by its type: an enum value carries a variant index that its shape has. -/

namespace VerifiableCompute.Serde

open Lib

mutual

inductive Shape
  | bool | i8 | i16 | i32 | i64 | i128 | u8 | u16 | u32 | u64 | u128 | f32 | f64 | char | str | bytes
  | option (value : Shape)
  | unit
  | unitStruct
  | newtypeStruct (value : Shape)
  | seq (element : Shape)
  | tuple (fields : Fields)
  | tupleStruct (fields : Fields)
  | map (key value : Shape)
  | struct (fields : Fields)
  | enum (variants : Variants)

/-- The elements of a tuple or the fields of a struct. -/
inductive Fields
  | nil
  | cons (field : Shape) (fields : Fields)

inductive Variant
  | unit
  | newtype (value : Shape)
  | tuple (fields : Fields)
  | struct (fields : Fields)

inductive Variants
  | nil
  | cons (variant : Variant) (variants : Variants)

end

mutual

/-- Floats are their bits, and a map is its entries in the order they are visited. -/
def Shape.Val : Shape → Type
  | .bool => Bool
  | .i8 | .u8 => BitVec 8
  | .i16 | .u16 => BitVec 16
  | .i32 | .u32 | .f32 => BitVec 32
  | .i64 | .u64 | .f64 => BitVec 64
  | .i128 | .u128 => BitVec 128
  | .char => Char
  | .str => String
  | .bytes => List Byte
  | .option value => Option value.Val
  | .unit | .unitStruct => Unit
  | .newtypeStruct value => value.Val
  | .seq element => List element.Val
  | .tuple fields | .tupleStruct fields | .struct fields => fields.Val
  | .map key value => List (key.Val × value.Val)
  | .enum variants => (variantIndex : Word) × variants.At variantIndex.toNat

def Fields.Val : Fields → Type
  | .nil => Unit
  | .cons field fields => field.Val × fields.Val

def Variant.Val : Variant → Type
  | .unit => Unit
  | .newtype value => value.Val
  | .tuple fields | .struct fields => fields.Val

/-- What a value holds under the variant with this index. -/
def Variants.At : Variants → ℕ → Type
  | .nil, _ => Empty
  | .cons variant _, 0 => variant.Val
  | .cons _ variants, n + 1 => variants.At n

end

def Variants.length : Variants → ℕ
  | .nil => 0
  | .cons _ variants => variants.length + 1

def utf8Bytes (s : String) : List Byte := s.toByteArray.data.toList.map UInt8.toBitVec

def fromUtf8 (bytes : List Byte) : Option String := String.fromUTF8? ⟨(bytes.map UInt8.ofBitVec).toArray⟩

theorem fromUtf8_utf8Bytes (s : String) : fromUtf8 (utf8Bytes s) = some s := by
  have hbytes : (⟨((utf8Bytes s).map UInt8.ofBitVec).toArray⟩ : ByteArray) = s.toByteArray := by
    rw [utf8Bytes, List.map_map, show UInt8.ofBitVec ∘ UInt8.toBitVec = id from rfl, List.map_id]
  rw [fromUtf8, hbytes, String.fromUTF8?, dif_pos s.isValidUTF8]
  rfl

mutual

/-- Every length in the value, of a string, a byte string, a sequence or a map, is below `2 ^ 32`. -/
def Shape.Fits : (s : Shape) → s.Val → Prop
  | .str, (v : String) => (utf8Bytes v).length < 2 ^ 32
  | .bytes, (v : List Byte) => v.length < 2 ^ 32
  | .option value, (v : Option value.Val) => ∀ w ∈ v, value.Fits w
  | .newtypeStruct value, (v : value.Val) => value.Fits v
  | .seq element, (v : List element.Val) => v.length < 2 ^ 32 ∧ ∀ w ∈ v, element.Fits w
  | .tuple fields, (v : fields.Val) => fields.Fits v
  | .tupleStruct fields, (v : fields.Val) => fields.Fits v
  | .struct fields, (v : fields.Val) => fields.Fits v
  | .map key value, (v : List (key.Val × value.Val)) => v.length < 2 ^ 32 ∧ ∀ e ∈ v, key.Fits e.1 ∧ value.Fits e.2
  | .enum variants, (v : (variantIndex : Word) × variants.At variantIndex.toNat) => variants.Fits v.1.toNat v.2
  | .bool, _ | .i8, _ | .i16, _ | .i32, _ | .i64, _ | .i128, _ | .u8, _ | .u16, _ | .u32, _ | .u64, _ | .u128, _
  | .f32, _ | .f64, _ | .char, _ | .unit, _ | .unitStruct, _ => True

def Fields.Fits : (fields : Fields) → fields.Val → Prop
  | .nil, _ => True
  | .cons field fields, (v : field.Val × fields.Val) => field.Fits v.1 ∧ fields.Fits v.2

def Variant.Fits : (variant : Variant) → variant.Val → Prop
  | .unit, _ => True
  | .newtype value, (v : value.Val) => value.Fits v
  | .tuple fields, (v : fields.Val) => fields.Fits v
  | .struct fields, (v : fields.Val) => fields.Fits v

def Variants.Fits : (variants : Variants) → (n : ℕ) → variants.At n → Prop
  | .nil, _, v => nomatch (v : Empty)
  | .cons variant _, 0, (v : variant.Val) => variant.Fits v
  | .cons _ variants, n + 1, (v : variants.At n) => variants.Fits n v

end

end VerifiableCompute.Serde
