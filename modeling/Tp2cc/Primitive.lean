import Tp2cc.Machine.Word
import Mathlib.Tactic.FinCases
import Mathlib.Tactic.NormNum

set_option autoImplicit false

namespace Tp2cc
open Machine

inductive PrimitiveIntKind where
  | none | signed | unsigned
  deriving DecidableEq, Repr

inductive PrimitiveKind where
  | longInt | longWord | smallInt | word | shortInt | byte | char | wideChar
  | boolean | byteBool | wordBool | longBool | qWordBool
  | single | double | real | extended | comp | pointer | pChar | text
  | int64 | qWord | currency | ptrInt | ptrUInt | sizeInt | sizeUInt
  | shortString | ansiString | utf8String
  deriving DecidableEq, Repr

inductive PrimitiveFamily where
  | other | integer | real | bool | char | wideChar | string | pointer | text
  deriving DecidableEq, Repr

structure PrimitiveInfo where
  family : PrimitiveFamily
  intKind : PrimitiveIntKind
  bits : Nat
  pointerSized : Bool
  isOrdinalInteger : Bool
  deriving DecidableEq, Repr

namespace PrimitiveInfo

def ordinalInteger (kind : PrimitiveIntKind) (bits : Nat) : PrimitiveInfo :=
  ⟨.integer, kind, bits, false, true⟩
def pointerInteger (kind : PrimitiveIntKind) : PrimitiveInfo := ⟨.integer, kind, 0, true, false⟩
def carried (family : PrimitiveFamily) (bits : Nat) : PrimitiveInfo :=
  ⟨family, .unsigned, bits, false, false⟩
def plain (family : PrimitiveFamily) : PrimitiveInfo := ⟨family, .none, 0, false, false⟩

end PrimitiveInfo

def PrimitiveKind.info : PrimitiveKind → PrimitiveInfo
  | .longInt => .ordinalInteger .signed 32
  | .longWord => .ordinalInteger .unsigned 32
  | .smallInt => .ordinalInteger .signed 16
  | .word => .ordinalInteger .unsigned 16
  | .shortInt => .ordinalInteger .signed 8
  | .byte => .ordinalInteger .unsigned 8
  | .char => .plain .char
  | .wideChar => .carried .wideChar 16
  | .boolean => .plain .bool
  | .byteBool => .carried .bool 8
  | .wordBool => .carried .bool 16
  | .longBool => .carried .bool 32
  | .qWordBool => .carried .bool 64
  | .single | .double | .real | .extended | .comp => .plain .real
  | .pointer | .pChar => .plain .pointer
  | .text => .plain .text
  | .int64 => .ordinalInteger .signed 64
  | .qWord => .ordinalInteger .unsigned 64
  | .currency => ⟨.integer, .signed, 64, false, false⟩
  | .ptrInt | .sizeInt => .pointerInteger .signed
  | .ptrUInt | .sizeUInt => .pointerInteger .unsigned
  | .shortString | .ansiString | .utf8String => .plain .string

/-- `pointer_bits` is 32 or 64; no other target can be built. -/
structure TargetInfo where
  pointerBits : Nat
  valid : pointerBits = 32 ∨ pointerBits = 64
  deriving DecidableEq, Repr

theorem TargetInfo.sixtyFour : 64 = 32 ∨ 64 = 64 := .inr rfl

namespace PrimitiveKind

theorem longInt_integer : longInt.info.intKind ≠ .none := by decide
theorem shortInt_integer : shortInt.info.intKind ≠ .none := by decide
theorem smallInt_integer : smallInt.info.intKind ≠ .none := by decide
theorem byte_integer : byte.info.intKind ≠ .none := by decide
theorem int64_integer : int64.info.intKind ≠ .none := by decide
theorem qWord_integer : qWord.info.intKind ≠ .none := by decide

end PrimitiveKind

/-- A primitive whose `int_kind` is not `None`: the only ones `primitive_bits` accepts
without throwing. -/
structure IntegerPrimitive where
  kind : PrimitiveKind
  isInteger : kind.info.intKind ≠ .none
  deriving DecidableEq, Repr

namespace IntegerPrimitive

def intKind (p : IntegerPrimitive) : PrimitiveIntKind := p.kind.info.intKind
def family (p : IntegerPrimitive) : PrimitiveFamily := p.kind.info.family

def signed (p : IntegerPrimitive) : Bool := p.intKind == .signed

def bits (p : IntegerPrimitive) (target : TargetInfo) : Nat :=
  if p.kind.info.pointerSized then target.pointerBits else p.kind.info.bits

theorem intKind_cases (p : IntegerPrimitive) : p.intKind = .signed ∨ p.intKind = .unsigned := by
  have h := p.isInteger
  unfold intKind
  cases hk : p.kind.info.intKind <;> simp_all

theorem signed_iff {p : IntegerPrimitive} : p.signed = true ↔ p.intKind = .signed := by
  simp [signed]

theorem not_signed_iff {p : IntegerPrimitive} : p.signed = false ↔ p.intKind = .unsigned := by
  have h := p.intKind_cases
  simp only [signed, beq_eq_false_iff_ne]
  constructor <;> intro h' <;> rcases h with h | h <;> simp_all

theorem bits_cases (p : IntegerPrimitive) (target : TargetInfo) :
    p.bits target = 8 ∨ p.bits target = 16 ∨ p.bits target = 32 ∨ p.bits target = 64 := by
  obtain ⟨k, hk⟩ := p
  obtain ⟨n, hn⟩ := target
  rcases hn with rfl | rfl <;> revert hk <;> cases k <;> decide

theorem bits_pos (p : IntegerPrimitive) (target : TargetInfo) : 0 < p.bits target := by
  have := p.bits_cases target
  omega

theorem bits_le (p : IntegerPrimitive) (target : TargetInfo) : p.bits target ≤ 64 := by
  have := p.bits_cases target
  omega

def intType (p : IntegerPrimitive) (target : TargetInfo) : IntType :=
  ⟨p.signed, p.bits target, p.bits_pos target⟩

@[simp] theorem intType_signed (p : IntegerPrimitive) (target : TargetInfo) :
    (p.intType target).signed = p.signed := rfl
@[simp] theorem intType_bits (p : IntegerPrimitive) (target : TargetInfo) :
    (p.intType target).bits = p.bits target := rfl

theorem intType_bits_le (p : IntegerPrimitive) (target : TargetInfo) :
    (p.intType target).bits ≤ 64 := p.bits_le target

theorem holds_of_signed {p : IntegerPrimitive} {target : TargetInfo} (h : p.intKind = .signed)
    {v : Int} :
    (p.intType target).Holds v ↔ -(2^(p.bits target-1)) ≤ v ∧ v ≤ 2^(p.bits target-1)-1 :=
  IntType.holds_signed (signed_iff.mpr h) v

theorem holds_of_unsigned {p : IntegerPrimitive} {target : TargetInfo} (h : p.intKind = .unsigned)
    {v : Int} : (p.intType target).Holds v ↔ 0 ≤ v ∧ v ≤ 2^p.bits target-1 :=
  IntType.holds_unsigned (not_signed_iff.mpr h) v

end IntegerPrimitive

/-- `primitive_info_storage`: the ordinal integers among the interned primitives. -/
def ordinalIntegers : List IntegerPrimitive :=
  [⟨.longInt, by decide⟩, ⟨.longWord, by decide⟩, ⟨.smallInt, by decide⟩, ⟨.word, by decide⟩,
   ⟨.shortInt, by decide⟩, ⟨.byte, by decide⟩, ⟨.int64, by decide⟩, ⟨.qWord, by decide⟩]

theorem mem_ordinalIntegers (p : IntegerPrimitive) :
    p ∈ ordinalIntegers ↔ p.kind.info.isOrdinalInteger = true := by
  obtain ⟨k, hk⟩ := p
  revert hk
  cases k <;> decide

def ordinalIntegerPrimitive (kind : PrimitiveIntKind) (bits : Nat) : Option IntegerPrimitive :=
  ordinalIntegers.find? fun candidate =>
    candidate.intKind = kind ∧ candidate.kind.info.bits = bits

theorem ordinalIntegerPrimitive_spec {kind : PrimitiveIntKind} {bits : Nat} {p : IntegerPrimitive}
    (h : ordinalIntegerPrimitive kind bits = some p) (target : TargetInfo) :
    p.intKind = kind ∧ p.bits target = bits ∧ p.kind.info.isOrdinalInteger = true := by
  have hm := (mem_ordinalIntegers p).mp (List.mem_of_find?_eq_some h)
  have hp := List.find?_some h
  simp only [decide_eq_true_eq] at hp
  refine ⟨hp.1, ?_, hm⟩
  have hs : p.kind.info.pointerSized = false := by
    obtain ⟨k, hk⟩ := p
    cases k <;> first | rfl | simp [PrimitiveKind.info, PrimitiveInfo.pointerInteger] at hm
  simp [IntegerPrimitive.bits, hs, hp.2]

theorem ordinalIntegerPrimitive_isSome {kind : PrimitiveIntKind} {bits : Nat}
    (hk : kind ≠ .none) (hb : bits = 8 ∨ bits = 16 ∨ bits = 32 ∨ bits = 64) :
    ∃ p, ordinalIntegerPrimitive kind bits = some p := by
  cases kind with
  | none => exact absurd rfl hk
  | signed => rcases hb with rfl | rfl | rfl | rfl <;> exact ⟨_, rfl⟩
  | unsigned => rcases hb with rfl | rfl | rfl | rfl <;> exact ⟨_, rfl⟩

def lowBits (value : Int) (bits : Nat) : Int := value % 2^bits

def unsignedMaskForBits (bits : Nat) : Int := 2^bits-1
def signedMinForBits (bits : Nat) : Int := -(2^(bits-1))
def signedMaxForBits (bits : Nat) : Int := 2^(bits-1)-1

/-- The narrowest ordinal integer holding `value`, a signed type where both signs fit. -/
def primitiveInfoForValue (value : Int) : Option IntegerPrimitive :=
  if -128 ≤ value ∧ value ≤ 127 then ordinalIntegerPrimitive .signed 8
  else if 0 ≤ value ∧ value ≤ 255 then ordinalIntegerPrimitive .unsigned 8
  else if -32768 ≤ value ∧ value ≤ 32767 then ordinalIntegerPrimitive .signed 16
  else if 0 ≤ value ∧ value ≤ 65535 then ordinalIntegerPrimitive .unsigned 16
  else if -2147483648 ≤ value ∧ value ≤ 2147483647 then ordinalIntegerPrimitive .signed 32
  else if 0 ≤ value ∧ value ≤ 4294967295 then ordinalIntegerPrimitive .unsigned 32
  else ordinalIntegerPrimitive .signed 64

theorem primitiveInfoForValue_holds {value : Int} {p : IntegerPrimitive}
    (hv : -(2^63) ≤ value ∧ value ≤ 2^63-1) (h : primitiveInfoForValue value = some p)
    (target : TargetInfo) : (p.intType target).Holds value := by
  unfold primitiveInfoForValue at h
  split_ifs at h with h₁ h₂ h₃ h₄ h₅ h₆ <;>
    obtain ⟨hk, hb, -⟩ := ordinalIntegerPrimitive_spec h target <;>
    simp [IntType.Holds, IntType.lo, IntType.hi, IntegerPrimitive.signed, hk, hb] <;> omega

theorem primitiveInfoForValue_isSome (value : Int) : ∃ p, primitiveInfoForValue value = some p := by
  unfold primitiveInfoForValue
  split_ifs <;> exact ordinalIntegerPrimitive_isSome (by decide) (by decide)

end Tp2cc
