import Mathlib.Algebra.Group.Int.Defs
import KoScripts.Lib.Varint

/-! # The message `Rect`

The message of `protobuf/target.proto` and the exceptions of the library that reads and writes it.
What the library does is a parameter, a codec; the one that is given here is of the proto3 wire
format, in which a field is its tag and its value as varints, and a field that is 0 is left out. -/

namespace KoScripts.Protobuf
open Lib

inductive PyError
  | indexError
  | decodeError
  | valueError
deriving DecidableEq

/-- `int32 x1 = 1; int32 y1 = 2; int32 x2 = 3; int32 y2 = 4;` -/
structure Rect where
  x1 : Int32
  y1 : Int32
  x2 : Int32
  y2 : Int32
deriving DecidableEq

/-- A message without any field set. -/
def Rect.new : Rect := ⟨0, 0, 0, 0⟩

/-- Assigning a Python integer to an `int32` field. -/
def toInt32 (v : Int) : Except PyError Int32 :=
  if -2 ^ 31 ≤ v ∧ v < 2 ^ 31 then .ok (.ofInt v) else .error .valueError

/-- What the generated message classes do. -/
structure Codec (α : Type) where
  serializeToString : α → List UInt8
  parseFromString : List UInt8 → Except PyError α

/-- Parsing inverts serialising. -/
def Codec.Inverse {α : Type} (codec : Codec α) : Prop :=
  ∀ msg, codec.parseFromString (codec.serializeToString msg) = .ok msg

/-! ## Wire format -/

def serializeField (tag : Nat) (v : Int32) : List UInt8 :=
  if v = 0 then [] else Varint.encode tag ++ Varint.encode (v.toInt % 2 ^ 64).toNat

def serializeRect (r : Rect) : List UInt8 :=
  serializeField 8 r.x1 ++ (serializeField 16 r.y1 ++ (serializeField 24 r.x2 ++
    serializeField 32 r.y2))

/-- Fields of other wire types are refused, unknown ones skipped. -/
def setField (r : Rect) (tag : Nat) (v : Int32) : Except PyError Rect :=
  if tag = 8 then .ok { r with x1 := v }
  else if tag = 16 then .ok { r with y1 := v }
  else if tag = 24 then .ok { r with x2 := v }
  else if tag = 32 then .ok { r with y2 := v }
  else if tag % 8 = 0 then .ok r
  else .error .decodeError

def parseFields : Nat → List UInt8 → Rect → Except PyError Rect
  | _, [], r => .ok r
  | 0, _, _ => .error .decodeError
  | fuel + 1, data, r =>
    match Varint.decode data with
    | .error _ => .error .decodeError
    | .ok (tag, data) =>
      match Varint.decode data with
      | .error _ => .error .decodeError
      | .ok (v, data) => (setField r tag (.ofNat v)).bind (parseFields fuel data)

def rectCodec : Codec Rect where
  serializeToString := serializeRect
  parseFromString data := parseFields data.length data .new

/-- A negative value goes through 64 bits and comes back by its low 32. -/
theorem ofNat_emod (v : Int32) : Int32.ofNat (v.toInt % 2 ^ 64).toNat = v := by
  have h1 := v.toInt_lt
  have h2 := v.le_toInt
  have hpos : 0 ≤ v.toInt % 2 ^ 64 := Int.emod_nonneg _ (by decide)
  apply Int32.toInt_inj.mp
  rw [← Int32.ofInt_eq_ofNat, Int32.toInt_ofInt, Int.toNat_of_nonneg hpos, Int32.size]
  simp only [Int.bmod_def]
  omega

theorem toNat_emod_lt (v : Int32) : (v.toInt % 2 ^ 64).toNat < 2 ^ 64 := by
  have hpos : 0 ≤ v.toInt % 2 ^ 64 := Int.emod_nonneg _ (by decide)
  have hlt : v.toInt % 2 ^ 64 < 2 ^ 64 := Int.emod_lt_of_pos _ (by decide)
  omega

variable {tag : Nat} {v : Int32} {rest : List UInt8} {r r' : Rect} {x : Except PyError Rect}

/-- One serialised field in front of the rest of a message. -/
theorem parseFields_serializeField (htag : tag < 2 ^ 64) (hset : setField r tag v = .ok r')
    (hzero : v = 0 → r' = r)
    (hrest : ∀ fuel, rest.length ≤ fuel → parseFields fuel rest r' = x) :
    ∀ fuel, (serializeField tag v ++ rest).length ≤ fuel →
      parseFields fuel (serializeField tag v ++ rest) r = x := by
  intro fuel hf
  rw [serializeField] at hf ⊢
  split
  · next h =>
    rw [if_pos h, List.nil_append] at hf
    rw [List.nil_append, ← hzero h]
    exact hrest fuel hf
  · next h =>
    rw [if_neg h, List.append_assoc] at hf
    rw [List.append_assoc]
    have hne : Varint.encode tag ≠ [] := Varint.encode_ne_nil
    cases hdata : Varint.encode tag ++ (Varint.encode (v.toInt % 2 ^ 64).toNat ++ rest) with
    | nil => exact absurd (List.append_eq_nil_iff.mp hdata).1 hne
    | cons b data =>
      cases fuel with
      | zero => rw [hdata] at hf; exact absurd hf (Nat.not_succ_le_zero _)
      | succ fuel =>
        have hlen : rest.length ≤ fuel := by
          have := List.length_pos_iff.mpr hne
          simp only [List.length_append] at hf
          omega
        rw [parseFields, ← hdata, Varint.decode_encode htag]
        simp only
        rw [Varint.decode_encode (toNat_emod_lt v)]
        simp only
        rw [ofNat_emod, hset]
        exact hrest fuel hlen
        exact List.cons_ne_nil _ _

theorem rectCodec_inverse : rectCodec.Inverse := by
  intro r
  refine parseFields_serializeField (by decide) rfl (fun h => ?_) ?_ _ (Nat.le_refl _)
  · rw [h]; rfl
  refine parseFields_serializeField (by decide) rfl (fun h => ?_) ?_
  · rw [h]; rfl
  refine parseFields_serializeField (by decide) rfl (fun h => ?_) ?_
  · rw [h]; rfl
  rw [← List.append_nil (serializeField 32 r.y2)]
  refine parseFields_serializeField (by decide) rfl ?_ ?_
  · intro h
    rw [h]; rfl
  · intro fuel _
    cases fuel <;> rfl

end KoScripts.Protobuf
