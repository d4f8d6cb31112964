import VerifiableCompute.Serde.Deserializer
import VerifiableCompute.Serde.Serializer

/-! What the serializer writes for a value of a shape, the deserializer of the shape
reads back, and it reads no further. -/

namespace VerifiableCompute.Serde

open Lib Codec Serializer Deserializer BitVec

theorem word_round_trip (v : Word) : (serializeU32 v).RoundTrip tryTakeWord v :=
  (words_round_trip [v]).map rfl

theorem dword_round_trip (v : BitVec 64) : (serializeU64 v).RoundTrip tryTakeDword v := by
  have hv := v.isLt
  have hmask : (0xFFFFFFFF : BitVec 64).toNat = 2 ^ 32 - 1 := rfl
  have hlow : ((v &&& 0xFFFFFFFF).setWidth 32).toNat = v.toNat % 2 ^ 32 := by
    rw [toNat_setWidth, toNat_and, hmask, Nat.and_two_pow_sub_one_eq_mod, Nat.mod_mod]
  have hhigh : ((v >>> 32 &&& 0xFFFFFFFF).setWidth 32).toNat = v.toNat / 2 ^ 32 := by
    rw [toNat_setWidth, toNat_and, hmask, Nat.and_two_pow_sub_one_eq_mod, Nat.mod_mod,
      toNat_ushiftRight, Nat.shiftRight_eq_div_pow]
    omega
  refine (word_round_trip _).bind ((word_round_trip _).map ?_)
  congr 1
  apply eq_of_toNat_eq
  have hlow64 : v.toNat % 2 ^ 32 % 2 ^ 64 = v.toNat % 2 ^ 32 := by omega
  have hhigh64 : v.toNat / 2 ^ 32 % 2 ^ 64 * 2 ^ 32 % 2 ^ 64 = 2 ^ 32 * (v.toNat / 2 ^ 32) := by omega
  rw [toNat_or, toNat_shiftLeft, toNat_setWidth 64, toNat_setWidth 64, hlow, hhigh,
    Nat.shiftLeft_eq, hlow64, hhigh64, Nat.or_comm, ← Nat.two_pow_add_eq_or_of_lt (by omega)]
  omega

theorem qword_round_trip (v : BitVec 128) : (serializeU128 v).RoundTrip deserializeU128 v := by
  have hpadded := @paddedBytes_round_trip (leBytes 16 v.toNat) (by simp)
  rw [leBytes_length] at hpadded
  have hlt : v.toNat < 256 ^ 16 := v.isLt
  apply hpadded.map
  rw [leNat_leBytes, Nat.mod_eq_of_lt hlt, ofNat_toNat, setWidth_eq]

theorem bool_round_trip (v : Bool) : (serializeBool v).RoundTrip deserializeBool v := by
  apply (word_round_trip _).map
  cases v <;> rfl

theorem visitI32_signExtend {w : ℕ} (hw : w ≤ 32) (exp : String) (v : BitVec w) :
    visitI32 w exp (v.signExtend 32) = pure v := by
  have hval : (v.signExtend 32).toInt = v.toInt := toInt_signExtend_of_le hw
  have hbits : (v.signExtend 32).setWidth w = v := by
    apply eq_of_getLsbD_eq
    intro i hi
    have : i < 32 := by omega
    rw [getLsbD_setWidth, getLsbD_signExtend]
    simp [hi, this]
  rw [visitI32, hval, if_pos ⟨v.le_toInt, v.toInt_lt⟩, hbits]

theorem visitU32_setWidth {w : ℕ} (hw : w ≤ 32) (exp : String) (v : BitVec w) :
    visitU32 w exp (v.setWidth 32) = pure v := by
  have hlt : v.toNat < 2 ^ w := v.isLt
  have hval : (v.setWidth 32).toNat = v.toNat := toNat_setWidth_of_le hw
  rw [visitU32, hval, if_pos hlt]
  congr 1
  apply eq_of_toNat_eq
  rw [toNat_setWidth, hval, Nat.mod_eq_of_lt hlt]

theorem char_round_trip (v : Char) : (serializeChar v).RoundTrip deserializeChar v := by
  apply (word_round_trip _).map
  have hchar : charFromU32 v.val.toBitVec = some v := dif_pos v.valid
  rw [hchar]

theorem toNat_ofNat_of_lt {n : ℕ} (h : n < 2 ^ 32) : (BitVec.ofNat 32 n).toNat = n := by
  rw [BitVec.toNat_ofNat, Nat.mod_eq_of_lt h]

theorem bytes_round_trip {v : List Byte} (h : v.length < 2 ^ 32) : (serializeBytes v).RoundTrip deserializeBytes v := by
  apply (word_round_trip _).bind
  rw [toNat_ofNat_of_lt h]
  exact paddedBytes_round_trip h

theorem str_round_trip {v : String} (h : (utf8Bytes v).length < 2 ^ 32) :
    (serializeStr v).RoundTrip deserializeStr v := by
  apply (word_round_trip _).bind
  rw [toNat_ofNat_of_lt h]
  apply (paddedBytes_round_trip h).map
  rw [fromUtf8_utf8Bytes]

theorem wordOfLength_of_lt {n : ℕ} (h : n < 2 ^ 32) : wordOfLength n = pure (.ofNat 32 n) := if_pos h

theorem counted_round_trip {α : Type} {w : α → Call Unit} {r : Call α} {v : List α} (hlength : v.length < 2 ^ 32)
    (h : ∀ a ∈ v, (w a).RoundTrip r a) : Codec.RoundTrip (do serializeSeq (some v.length); writeEach w v)
      (do let len ← tryTakeWord; readMany r len.toNat) v := by
  have hseq : serializeSeq (some v.length) = serializeU32 (.ofNat 32 v.length) := by
    rw [serializeSeq, wordOfLength_of_lt hlength]
    rfl
  rw [hseq]
  apply (word_round_trip _).bind
  rw [toNat_ofNat_of_lt hlength]
  exact .many v h

/-- A variant is its tag and then what `r` reads. -/
def Tagged {α : Type} (tag : Word) (w : Call Unit) (r : Call α) (a : α) : Prop :=
  ∃ payload, w = (do serializeU32 tag; payload) ∧ payload.RoundTrip r a

mutual

theorem Shape.round_trip : (s : Shape) → (v : s.Val) → s.Fits v → (s.serialize v).RoundTrip s.deserialize v
  | .bool, v, _ => bool_round_trip v
  | .i8, v, _ => (word_round_trip _).map (visitI32_signExtend (by decide) _ (v : BitVec 8))
  | .i16, v, _ => (word_round_trip _).map (visitI32_signExtend (by decide) _ (v : BitVec 16))
  | .u8, v, _ => (word_round_trip _).map (visitU32_setWidth (by decide) _ (v : BitVec 8))
  | .u16, v, _ => (word_round_trip _).map (visitU32_setWidth (by decide) _ (v : BitVec 16))
  | .i32, v, _ | .u32, v, _ | .f32, v, _ => word_round_trip v
  | .i64, v, _ | .u64, v, _ | .f64, v, _ => dword_round_trip v
  | .i128, v, _ | .u128, v, _ => qword_round_trip v
  | .char, v, _ => char_round_trip v
  | .str, _, h => str_round_trip h
  | .bytes, _, h => bytes_round_trip h
  | .option value, (v : Option value.Val), h => by
    cases v with
    | none => exact (word_round_trip 0).map rfl
    | some v =>
      have hvalue := value.round_trip v (h v rfl)
      have hsome : Codec.RoundTrip (value.serialize v) (do let value ← value.deserialize; return some value) (some v) :=
        hvalue.map rfl
      exact (word_round_trip 1).bind hsome
  | .unit, _, _ | .unitStruct, _, _ => .pure ()
  | .newtypeStruct value, v, h => value.round_trip v h
  | .seq element, _, h => counted_round_trip h.1 fun a ha => element.round_trip a (h.2 a ha)
  | .map key value, _, h => counted_round_trip h.1 fun e he =>
    (key.round_trip e.1 (h.2 e he).1).bind ((value.round_trip e.2 (h.2 e he).2).map rfl)
  | .tuple fields, v, h | .tupleStruct fields, v, h | .struct fields, v, h => fields.round_trip v h
  | .enum variants, v, h => by
    obtain ⟨payload, hw, hpayload⟩ := variants.tagged v.1 variants.length v.1.toNat v.2 h
    show Codec.RoundTrip (variants.serialize v.1 v.1.toNat v.2) _ v
    rw [hw]
    exact (word_round_trip v.1).bind (hpayload.map rfl)

theorem Fields.round_trip :
    (fields : Fields) → (v : fields.Val) → fields.Fits v → (fields.serialize v).RoundTrip fields.deserialize v
  | .nil, _, _ => .pure ()
  | .cons field fields, v, h => (field.round_trip v.1 h.1).bind ((fields.round_trip v.2 h.2).map rfl)

theorem Variant.tagged (tag : Word) : (variant : Variant) → (v : variant.Val) → variant.Fits v →
    Tagged tag (variant.serialize tag v) variant.deserialize v
  | .unit, _, _ => ⟨pure (), rfl, .pure ()⟩
  | .newtype value, v, h => ⟨value.serialize v, rfl, value.round_trip v h⟩
  | .tuple fields, v, h => ⟨fields.serialize v, rfl, fields.round_trip v h⟩
  | .struct fields, v, h => ⟨fields.serialize v, rfl, fields.round_trip v h⟩

theorem Variants.tagged (tag : Word) (len : ℕ) : (variants : Variants) → (n : ℕ) → (v : variants.At n) →
    variants.Fits n v → Tagged tag (variants.serialize tag n v) (variants.deserialize tag len n) v
  | .nil, _, v, _ => nomatch (v : Empty)
  | .cons variant _, 0, v, h => variant.tagged tag v h
  | .cons _ variants, n + 1, v, h => variants.tagged tag len n v h

end

/-- Serialization of a value succeeds, and its words with anything after them read back as
the value and leave what was after them; so no two values have words of which one list
starts with the other. -/
theorem serde_round_trip (s : Shape) :
    (∀ v, s.Fits v → ∃ words, toVec s v = .ok words ∧ ∀ rest, s.deserialize (words ++ rest) = .ok (v, rest)) ∧
      ∀ v v' words words' rest rest', s.Fits v → s.Fits v' → toVec s v = .ok words → toVec s v' = .ok words' →
        words ++ rest = words' ++ rest' → v = v' ∧ words = words' := by
  have hwrites (v : s.Val) (h : s.Fits v) : ∃ words, toVec s v = .ok words ∧ s.deserialize.Reads words v := by
    obtain ⟨words, hw, hr⟩ := s.round_trip v h
    refine ⟨words, ?_, hr⟩
    rw [toVec, hw []]
    rfl
  refine ⟨hwrites, fun v v' words words' rest rest' h h' hwords hwords' heq => ?_⟩
  obtain ⟨_, htoVec, hr⟩ := hwrites v h
  obtain ⟨_, htoVec', hr'⟩ := hwrites v' h'
  cases htoVec.symm.trans hwords
  cases htoVec'.symm.trans hwords'
  exact hr.prefix_free hr' heq

/-- A struct of a signed byte, a string that does not fill its last word and an
enum value under the second variant. -/
def sampleShape : Shape :=
  .struct (.cons .i8 (.cons .str (.cons (.enum (.cons .unit (.cons (.newtype (.option .u64)) .nil))) .nil)))

def sampleValue : sampleShape.Val := ((-3 : BitVec 8), "hello", ⟨1, some (7 : BitVec 64)⟩, ())

theorem serde_round_trip_sample : ∃ words, toVec sampleShape sampleValue = .ok words ∧
      sampleShape.deserialize (words ++ [9]) = .ok (sampleValue, [9]) := by
  have hstr : (utf8Bytes "hello").length < 2 ^ 32 := by decide
  have hfits : sampleShape.Fits sampleValue := ⟨trivial, hstr, fun _ _ => trivial, trivial⟩
  obtain ⟨words, hwords, hread⟩ := (serde_round_trip sampleShape).1 sampleValue hfits
  exact ⟨words, hwords, hread [9]⟩

example : toVec sampleShape sampleValue = .ok [0xfffffffd, 5, 0x6c6c6568, 0x6f, 1, 1, 7, 0] := rfl

end VerifiableCompute.Serde
