import Tp2cc.Analysis.Carrier

set_option autoImplicit false

namespace Tp2cc
open Machine Rt

def ordinalIntegerPrimitiveForDomain (low high : Int) : Option IntegerPrimitive :=
  if low < 0 then
    ordinalIntegerPrimitive .signed
      (if low ≥ signedMinForBits 8 ∧ high ≤ signedMaxForBits 8 then 8
       else if low ≥ signedMinForBits 16 ∧ high ≤ signedMaxForBits 16 then 16
       else if low ≥ signedMinForBits 32 ∧ high ≤ signedMaxForBits 32 then 32
       else 64)
  else
    ordinalIntegerPrimitive .unsigned
      (if high ≤ unsignedMaskForBits 8 then 8
       else if high ≤ unsignedMaskForBits 16 then 16
       else if high ≤ unsignedMaskForBits 32 then 32
       else 64)

/-- `ordinal_integer_type` of the smallest primitive that the bounds of a subrange select. -/
def subrangeIntegerType (low high : Int) : Option IntegerPrimitive :=
  if low < 0 then
    if high ≤ signedMaxForBits 8 then ordinalIntegerPrimitive .signed 8
    else if high ≤ signedMaxForBits 16 then ordinalIntegerPrimitive .signed 16
    else if high ≤ signedMaxForBits 32 then ordinalIntegerPrimitive .signed 32
    else ordinalIntegerPrimitive .signed 64
  else
    if high ≤ unsignedMaskForBits 8 then ordinalIntegerPrimitive .unsigned 8
    else if high ≤ unsignedMaskForBits 16 then ordinalIntegerPrimitive .unsigned 16
    else if high ≤ unsignedMaskForBits 32 then ordinalIntegerPrimitive .unsigned 32
    else ordinalIntegerPrimitive .unsigned 64

/-- The enum branch of `ordinal_storage_primitive`, on the first and last ordinal. -/
def enumStoragePrimitive (packenum : Nat) (low high : Int) : Option IntegerPrimitive :=
  ordinalIntegerPrimitive (if low < 0 then .signed else .unsigned)
    (if low < -(2^31) ∨ high > 2^32-1 then 64
     else if packenum ≥ 4 ∨ low < -(2^15) ∨ high > 2^16-1 then 32
     else if packenum ≥ 2 ∨ low < -(2^7) ∨ high > 2^8-1 then 16
     else 8)

/-- An enum by its storage setting and its first and last ordinal, which are `int64_t`. Its
members are enumerators of the storage type, so C++ accepts it only where that type holds both. -/
structure EnumType where
  packenum : Nat
  low : Int
  high : Int
  storage : IntegerPrimitive
  ordered : low ≤ high
  int64 : cxxInt64.Holds low ∧ cxxInt64.Holds high
  selected : enumStoragePrimitive packenum low high = some storage
  stored (target : TargetInfo) :
    (storage.intType target).Holds low ∧ (storage.intType target).Holds high

inductive SubrangeBase where
  | integer | char | boolean
  | enum (e : EnumType)

def SubrangeBase.Contains : SubrangeBase → Int → Prop
  | .integer, v => cxxInt64.Holds v
  | .char, v => 0 ≤ v ∧ v ≤ 255
  | .boolean, v => 0 ≤ v ∧ v ≤ 1
  | .enum e, v => e.low ≤ v ∧ v ≤ e.high

inductive OrdinalType where
  | integer (p : IntegerPrimitive) (isInteger : p.family = .integer)
      (notCurrency : p.kind ≠ .currency)
  | char
  | boolean
  | enum (e : EnumType)
  | subrange (base : SubrangeBase) (low high : Int) (ordered : low ≤ high)
      (contained : base.Contains low ∧ base.Contains high)

namespace OrdinalType

def storagePrimitive : OrdinalType → Option IntegerPrimitive
  | .integer p _ _ => some p
  | .char => ordinalIntegerPrimitiveForDomain 0 255
  | .boolean => ordinalIntegerPrimitiveForDomain 0 1
  | .enum e => enumStoragePrimitive e.packenum e.low e.high
  | .subrange (.enum e) _ _ _ _ => enumStoragePrimitive e.packenum e.low e.high
  | .subrange _ low high _ _ => ordinalIntegerPrimitiveForDomain low high

section
variable (target : TargetInfo)

def low : OrdinalType → Int
  | .integer p _ _ => (p.intType target).lo
  | .char | .boolean => 0
  | .enum e => e.low
  | .subrange _ low _ _ _ => low

def high : OrdinalType → Int
  | .integer p _ _ => (p.intType target).hi
  | .char => 255
  | .boolean => 1
  | .enum e => e.high
  | .subrange _ _ high _ _ => high

def isBoolean : OrdinalType → Bool
  | .boolean | .subrange .boolean _ _ _ _ => true
  | _ => false

end

/-- The storage of a type together with what the selection promises about it. -/
structure Stored (target : TargetInfo) (t : OrdinalType) (s : IntegerPrimitive) : Prop where
  selected : t.storagePrimitive = some s
  low_held : (s.intType target).Holds (t.low target)
  high_held : (s.intType target).Holds (t.high target)
  ordered : t.low target ≤ t.high target

end OrdinalType

section
variable {target : TargetInfo}

theorem ordinalIntegerPrimitiveForDomain_holds {low high : Int} {s : IntegerPrimitive}
    (h : ordinalIntegerPrimitiveForDomain low high = some s) (ho : low ≤ high)
    (hl : cxxInt64.Holds low) (hh : cxxInt64.Holds high) :
    (s.intType target).Holds low ∧ (s.intType target).Holds high := by
  rw [holds_int64] at hl hh
  unfold ordinalIntegerPrimitiveForDomain at h
  split at h
  · obtain ⟨hk, hb, -⟩ := ordinalIntegerPrimitive_spec h target
    rw [IntegerPrimitive.holds_of_signed hk, IntegerPrimitive.holds_of_signed hk, hb]
    split_ifs <;> simp only [signedMinForBits, signedMaxForBits] at * <;> omega
  · obtain ⟨hk, hb, -⟩ := ordinalIntegerPrimitive_spec h target
    rw [IntegerPrimitive.holds_of_unsigned hk, IntegerPrimitive.holds_of_unsigned hk, hb]
    split_ifs <;> simp only [unsignedMaskForBits] at * <;> omega

theorem ordinalIntegerPrimitiveForDomain_isSome (low high : Int) :
    ∃ s, ordinalIntegerPrimitiveForDomain low high = some s := by
  unfold ordinalIntegerPrimitiveForDomain
  split
  · exact ordinalIntegerPrimitive_isSome (by simp) (by split_ifs <;> simp)
  · exact ordinalIntegerPrimitive_isSome (by simp) (by split_ifs <;> simp)

theorem subrangeIntegerType_isSome (low high : Int) :
    ∃ p, subrangeIntegerType low high = some p := by
  unfold subrangeIntegerType
  split_ifs <;> exact ordinalIntegerPrimitive_isSome (by simp) (by simp)

theorem subrangeIntegerType_family {low high : Int} {p : IntegerPrimitive}
    (h : subrangeIntegerType low high = some p) : p.family = .integer ∧ p.kind ≠ .currency := by
  have hordinal : p.kind.info.isOrdinalInteger = true := by
    unfold subrangeIntegerType at h
    split_ifs at h <;> exact (mem_ordinalIntegers p).mp (List.mem_of_find?_eq_some h)
  revert hordinal
  unfold IntegerPrimitive.family
  cases p.kind <;> decide

theorem SubrangeBase.Contains.int64 {base : SubrangeBase} {v : Int} (h : base.Contains v) :
    cxxInt64.Holds v := by
  cases base with
  | integer => exact h
  | char => rw [holds_int64]; simp only [Contains] at h; omega
  | boolean => rw [holds_int64]; simp only [Contains] at h; omega
  | enum e => exact ⟨e.int64.1.1.trans h.1, h.2.trans e.int64.2.2⟩

theorem OrdinalType.stored_of_domain {t : OrdinalType}
    (h : t.storagePrimitive = ordinalIntegerPrimitiveForDomain (t.low target) (t.high target))
    (ho : t.low target ≤ t.high target) (hl : cxxInt64.Holds (t.low target))
    (hh : cxxInt64.Holds (t.high target)) : ∃ s, t.Stored target s := by
  obtain ⟨s, hs⟩ := ordinalIntegerPrimitiveForDomain_isSome (t.low target) (t.high target)
  obtain ⟨h₁, h₂⟩ := ordinalIntegerPrimitiveForDomain_holds hs ho hl hh
  exact ⟨s, h.trans hs, h₁, h₂, ho⟩

theorem OrdinalType.exists_stored (t : OrdinalType) : ∃ s, t.Stored target s := by
  cases t with
  | integer p hi hc =>
    have ho := (p.intType target).holds_zero.1.trans (p.intType target).holds_zero.2
    exact ⟨p, rfl, ⟨le_refl _, ho⟩, ⟨ho, le_refl _⟩, ho⟩
  | char =>
    have h : cxxInt64.Holds 0 ∧ cxxInt64.Holds 255 := by decide
    exact stored_of_domain rfl (by simp [low, high]) h.1 h.2
  | boolean =>
    have h : cxxInt64.Holds 0 ∧ cxxInt64.Holds 1 := by decide
    exact stored_of_domain rfl (by simp [low, high]) h.1 h.2
  | enum e => exact ⟨e.storage, e.selected, (e.stored target).1, (e.stored target).2, e.ordered⟩
  | subrange base low high ho hc =>
    cases base with
    | enum e =>
      obtain ⟨h₁, h₂⟩ := e.stored target
      obtain ⟨⟨h₃, h₄⟩, h₅, h₆⟩ := hc
      exact ⟨e.storage, e.selected, ⟨h₁.1.trans h₃, h₄.trans h₂.2⟩,
        ⟨h₁.1.trans h₅, h₆.trans h₂.2⟩, ho⟩
    | integer => exact stored_of_domain rfl ho hc.1.int64 hc.2.int64
    | char => exact stored_of_domain rfl ho hc.1.int64 hc.2.int64
    | boolean => exact stored_of_domain rfl ho hc.1.int64 hc.2.int64

/-- Only the unsigned 64-bit types reach beyond `int64_t`, and they do so from zero. -/
theorem OrdinalType.bounds_cases (t : OrdinalType) :
    (cxxInt64.Holds (t.low target) ∧ cxxInt64.Holds (t.high target)) ∨
      (t.low target = 0 ∧ t.high target = 2^64-1) := by
  cases t with
  | integer p hi hc =>
    rcases p.intKind_cases with hk | hk
    · left
      rcases p.bits_cases target with hb | hb | hb | hb <;>
        simp [low, high, holds_int64, IntType.lo, IntType.hi, IntegerPrimitive.signed, hk, hb]
    · rcases p.bits_cases target with hb | hb | hb | hb <;>
        simp [low, high, holds_int64, IntType.lo, IntType.hi, IntegerPrimitive.signed, hk, hb]
  | char => exact .inl (by simp [low, high, holds_int64])
  | boolean => exact .inl (by simp [low, high, holds_int64])
  | enum e => exact .inl e.int64
  | subrange base low high ho hc => exact .inl ⟨hc.1.int64, hc.2.int64⟩

def OrdinalType.cxxType (target : TargetInfo) (t : OrdinalType) (storage : IntegerPrimitive) :
    IntType :=
  if t.isBoolean then cxxBool else storage.intType target

theorem OrdinalType.isBoolean_bounds {t : OrdinalType} (h : t.isBoolean = true) :
    0 ≤ t.low target ∧ t.high target ≤ 1 := by
  cases t with
  | boolean => simp [low, high]
  | subrange base lo hi ho hc =>
    cases base with
    | boolean => exact ⟨hc.1.1, hc.2.2⟩
    | _ => simp [isBoolean] at h
  | _ => simp [isBoolean] at h

theorem OrdinalType.Stored.cxxType_holds {t : OrdinalType} {s : IntegerPrimitive}
    (h : t.Stored target s) {v : Int} (hv : t.low target ≤ v ∧ v ≤ t.high target) :
    (t.cxxType target s).Holds v := by
  unfold cxxType
  split_ifs with hb
  · obtain ⟨h₁, h₂⟩ := isBoolean_bounds hb
    exact ⟨h₁.trans hv.1, hv.2.trans h₂⟩
  · exact ⟨h.low_held.1.trans hv.1, hv.2.trans h.high_held.2⟩

theorem OrdinalType.cxxType_bits_le (t : OrdinalType) (s : IntegerPrimitive) :
    (t.cxxType target s).bits ≤ s.bits target := by
  unfold cxxType
  split_ifs
  · exact s.bits_pos target
  · exact le_refl _

theorem boolean_storage {t : OrdinalType} {s : IntegerPrimitive} (ht : t.isBoolean = true)
    (hs : t.storagePrimitive = some s) : s.intKind = .unsigned ∧ s.bits target = 8 := by
  have hdomain {low high : Int} (h0 : 0 ≤ low) (h1 : high ≤ 1)
      (h : ordinalIntegerPrimitiveForDomain low high = some s) :
      s.intKind = .unsigned ∧ s.bits target = 8 := by
    have h8 : high ≤ unsignedMaskForBits 8 := by
      simp only [unsignedMaskForBits]
      omega
    rw [ordinalIntegerPrimitiveForDomain, if_neg (by omega), if_pos h8] at h
    obtain ⟨hk, hb, -⟩ := ordinalIntegerPrimitive_spec h target
    exact ⟨hk, hb⟩
  cases t with
  | boolean => exact hdomain (by decide) (by decide) hs
  | subrange base low high ho hc =>
    cases base with
    | boolean => exact hdomain hc.1.1 hc.2.2 hs
    | _ => simp [OrdinalType.isBoolean] at ht
  | _ => simp [OrdinalType.isBoolean] at ht

/-- A value of an ordinal type, within the type's bounds, in the C++ type that stores it. -/
structure OrdinalValue (target : TargetInfo) where
  type : OrdinalType
  storage : IntegerPrimitive
  stored : type.Stored target storage
  word : Word (type.cxxType target storage)
  bounded : type.low target ≤ word.val ∧ word.val ≤ type.high target

end
end Tp2cc
