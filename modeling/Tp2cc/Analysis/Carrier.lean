import Tp2cc.Ast
import Tp2cc.Analysis.ConstInt

set_option autoImplicit false

namespace Tp2cc
open Machine Rt

section
variable (target : TargetInfo)

def defaultIntegerPrimitive (kind : PrimitiveIntKind) : Option IntegerPrimitive :=
  ordinalIntegerPrimitive kind target.pointerBits

def commonIntegerPrimitive (lhs rhs : IntegerPrimitive) : Option IntegerPrimitive :=
  if lhs.intKind = rhs.intKind then
    ordinalIntegerPrimitive lhs.intKind (max (lhs.bits target) (rhs.bits target))
  else
    let signedBits := if lhs.intKind = .signed then lhs.bits target else rhs.bits target
    let unsignedBits := if lhs.intKind = .unsigned then lhs.bits target else rhs.bits target
    if signedBits > unsignedBits then ordinalIntegerPrimitive .signed signedBits
    else if unsignedBits < 64 then
      -- the next wider signed carrier
      ordinalIntegerPrimitive .signed
        (if unsignedBits < 8 then 8 else if unsignedBits < 16 then 16
         else if unsignedBits < 32 then 32 else 64)
    else ordinalIntegerPrimitive .unsigned 64

def integerArithmeticPrimitive (op : BinOp) (lhs rhs : IntegerPrimitive) :
    Option IntegerPrimitive :=
  let lhsBits := lhs.bits target
  let rhsBits := rhs.bits target
  if (lhs.intKind = .signed ∧ lhsBits = 64) ∨ (rhs.intKind = .signed ∧ rhsBits = 64) then
    ordinalIntegerPrimitive .signed 64
  else if (lhs.intKind = .unsigned ∧ lhsBits = 64) ∨ (rhs.intKind = .unsigned ∧ rhsBits = 64) then
    ordinalIntegerPrimitive .unsigned 64
  else if target.pointerBits = 32 ∧
      ((lhs.intKind = .unsigned ∧ lhsBits = target.pointerBits) ∨
        (rhs.intKind = .unsigned ∧ rhsBits = target.pointerBits)) ∧
      (lhs.intKind = .signed ∨ rhs.intKind = .signed ∨ op = .sub) then
    ordinalIntegerPrimitive .signed 64
  else if lhs.intKind = .signed ∨ rhs.intKind = .signed ∨ op = .sub then
    defaultIntegerPrimitive target .signed
  else defaultIntegerPrimitive target .unsigned

/-- An operand as the selection functions see it: its canonical primitive and, where the
expression folds, the constant it folds to. -/
structure OperandInfo where
  primitive : IntegerPrimitive
  constant : Option ConstIntExprInfo

def OperandInfo.fits (operand : OperandInfo) (p : IntegerPrimitive) : Bool :=
  match operand.constant with
  | some value => constIntFitsPrimitive target value p
  | none => false

/-- The type `integer_division_primitive` lets an operand take: its own, or the unsigned type
of the other operand. -/
def convertedDivisionOperand (operand : OperandInfo) (other : IntegerPrimitive) :
    IntegerPrimitive :=
  if other.intKind = .unsigned ∧ (operand.fits target other = true ∨
      (operand.primitive.intKind = .unsigned ∧
        other.bits target ≥ operand.primitive.bits target)) then other
  else operand.primitive

def effectiveDivisionPrimitive (lhs rhs : IntegerPrimitive) : Option IntegerPrimitive :=
  let lhsBits := lhs.bits target
  let rhsBits := rhs.bits target
  if lhsBits = 64 ∨ rhsBits = 64 then
    ordinalIntegerPrimitive
      (if lhs.intKind = .signed ∨ rhs.intKind = .signed then .signed else .unsigned) 64
  else
    let lhsNativeUnsigned := lhs.intKind = .unsigned ∧ lhsBits = target.pointerBits
    let rhsNativeUnsigned := rhs.intKind = .unsigned ∧ rhsBits = target.pointerBits
    if target.pointerBits = 32 ∧ (lhsNativeUnsigned ∨ rhsNativeUnsigned) ∧
        (lhs.intKind = .signed ∨ rhs.intKind = .signed) then
      ordinalIntegerPrimitive .signed 64
    else if lhsNativeUnsigned ∨ rhsNativeUnsigned then defaultIntegerPrimitive target .unsigned
    else defaultIntegerPrimitive target .signed

def integerDivisionPrimitive (lhs rhs : OperandInfo) : Option IntegerPrimitive :=
  effectiveDivisionPrimitive target (convertedDivisionOperand target lhs rhs.primitive)
    (convertedDivisionOperand target rhs lhs.primitive)

def integerComparisonPrimitive (lhs rhs : OperandInfo) : Option IntegerPrimitive :=
  let l := lhs.primitive
  let r := rhs.primitive
  if l.intKind = r.intKind ∧ l.bits target < 64 ∧ r.bits target < 64 then
    commonIntegerPrimitive target l r
  else if l.intKind ≠ r.intKind ∧ lhs.fits target r = true then some r
  else if l.intKind ≠ r.intKind ∧ rhs.fits target l = true then some l
  else integerArithmeticPrimitive target .add l r

def integerBitwisePrimitive (op : BinOp) (lhs rhs : IntegerPrimitive) : Option IntegerPrimitive :=
  if lhs.kind = .currency ∨ rhs.kind = .currency then none
  else
    let lhsBits := lhs.bits target
    let rhsBits := rhs.bits target
    if op = .and then
      let signedBits := if lhs.intKind = .signed then lhsBits else rhsBits
      let unsignedBits := if lhs.intKind = .unsigned then lhsBits else rhsBits
      if lhs.intKind ≠ rhs.intKind ∧ unsignedBits ≥ signedBits ∧
          unsignedBits ≥ min target.pointerBits 32 then
        ordinalIntegerPrimitive .unsigned unsignedBits
      else commonIntegerPrimitive target lhs rhs
    else if lhs.intKind = rhs.intKind ∧ lhsBits < 64 ∧ rhsBits < 64 then
      commonIntegerPrimitive target lhs rhs
    else integerArithmeticPrimitive target .add lhs rhs

end

section
variable {target : TargetInfo}

/-- An unsigned 64-bit type on one side and a signed type on the other. -/
def UnsignedMeetsSigned (target : TargetInfo) (lhs rhs : IntegerPrimitive) : Prop :=
  (lhs.intKind = .unsigned ∧ lhs.bits target = 64 ∧ rhs.intKind = .signed) ∨
    (rhs.intKind = .unsigned ∧ rhs.bits target = 64 ∧ lhs.intKind = .signed)

instance (lhs rhs : IntegerPrimitive) : Decidable (UnsignedMeetsSigned target lhs rhs) :=
  inferInstanceAs (Decidable (_ ∨ _))

/-- `c` is a carrier for `p`: no value of `p` changes when converted to it. -/
def Carries (target : TargetInfo) (c p : IntegerPrimitive) : Prop :=
  (p.intType target).Within (c.intType target)

theorem carries_of_same {c p : IntegerPrimitive} (hk : p.intKind = c.intKind)
    (hb : p.bits target ≤ c.bits target) : Carries target c p :=
  IntType.within_of_same (by simp [IntegerPrimitive.signed, hk]) hb

theorem carries_of_unsigned {c p : IntegerPrimitive} (hp : p.intKind = .unsigned)
    (hc : c.intKind = .signed) (hb : p.bits target < c.bits target) : Carries target c p :=
  IntType.within_of_unsigned (by simp [IntegerPrimitive.signed, hp])
    (by simp [IntegerPrimitive.signed, hc]) hb

def Room (target : TargetInfo) (kind : PrimitiveIntKind) (bits : Nat) (p : IntegerPrimitive) :
    Prop :=
  p.bits target ≤ bits ∧ (p.intKind = .signed → kind = .signed) ∧
    (p.intKind = .unsigned → kind = .signed → p.bits target < bits)

theorem carries_of_selected {c p : IntegerPrimitive} {kind : PrimitiveIntKind} {bits : Nat}
    (h : ordinalIntegerPrimitive kind bits = some c) (hp : Room target kind bits p) :
    Carries target c p := by
  obtain ⟨hk, hb, -⟩ := ordinalIntegerPrimitive_spec h target
  obtain ⟨hle, hs, hu⟩ := hp
  rcases p.intKind_cases with kp | kp
  · exact carries_of_same (by rw [kp, hk, hs kp]) (by omega)
  · rcases c.intKind_cases with kc | kc
    · exact carries_of_unsigned kp kc (by have := hu kp (by rw [← hk, kc]); omega)
    · exact carries_of_same (by rw [kp, kc]) (by omega)

theorem pointerBits_cases (target : TargetInfo) :
    target.pointerBits = 32 ∨ target.pointerBits = 64 := target.valid

theorem commonIntegerPrimitive_carries {lhs rhs c : IntegerPrimitive}
    (h : commonIntegerPrimitive target lhs rhs = some c)
    (hx : ¬ UnsignedMeetsSigned target lhs rhs) : Carries target c lhs ∧ Carries target c rhs := by
  have hl := lhs.bits_cases target
  have hr := rhs.bits_cases target
  have kl := lhs.intKind_cases
  have kr := rhs.intKind_cases
  simp only [commonIntegerPrimitive] at h
  unfold UnsignedMeetsSigned at hx
  split_ifs at h <;>
    exact ⟨carries_of_selected h (by unfold Room; grind),
      carries_of_selected h (by unfold Room; grind)⟩

theorem integerArithmeticPrimitive_carries {op : BinOp} {lhs rhs c : IntegerPrimitive}
    (h : integerArithmeticPrimitive target op lhs rhs = some c)
    (hx : ¬ UnsignedMeetsSigned target lhs rhs) : Carries target c lhs ∧ Carries target c rhs := by
  have hl := lhs.bits_cases target
  have hr := rhs.bits_cases target
  have hp := pointerBits_cases target
  simp only [integerArithmeticPrimitive, defaultIntegerPrimitive] at h
  unfold UnsignedMeetsSigned at hx
  rcases lhs.intKind_cases with kl | kl <;> rcases rhs.intKind_cases with kr | kr <;>
    simp only [kl, kr, reduceCtorEq, true_and, and_true, false_and, and_false, true_or, or_true,
      false_or, or_false, if_true, if_false] at h hx <;>
    split_ifs at h <;>
    exact ⟨carries_of_selected h (by unfold Room; grind),
      carries_of_selected h (by unfold Room; grind)⟩

theorem integerArithmeticPrimitive_bits_le {op : BinOp} {lhs rhs c : IntegerPrimitive}
    (h : integerArithmeticPrimitive target op lhs rhs = some c) :
    lhs.bits target ≤ c.bits target := by
  have hl := lhs.bits_cases target
  have hp := pointerBits_cases target
  have kl := lhs.intKind_cases
  simp only [integerArithmeticPrimitive, defaultIntegerPrimitive] at h
  split_ifs at h <;> obtain ⟨-, hb, -⟩ := ordinalIntegerPrimitive_spec h target <;> grind

theorem integerArithmeticPrimitive_of_meets {op : BinOp} {lhs rhs c : IntegerPrimitive}
    (h : integerArithmeticPrimitive target op lhs rhs = some c)
    (hx : UnsignedMeetsSigned target lhs rhs) :
    c.bits target = 64 ∧
      (c.intKind = .signed ∧ lhs.bits target = 64 ∧ rhs.bits target = 64 ∨
        c.intKind = .unsigned ∧ (lhs.bits target < 64 ∨ rhs.bits target < 64)) := by
  have hl := lhs.bits_le target
  have hr := rhs.bits_le target
  simp only [integerArithmeticPrimitive] at h
  rcases hx with ⟨k₁, b₁, k₂⟩ | ⟨k₁, b₁, k₂⟩ <;>
    simp only [k₁, b₁, k₂, reduceCtorEq, false_and, true_and, or_false, false_or, true_or,
      or_true, if_true] at h <;>
    split_ifs at h <;> obtain ⟨hk, hb, -⟩ := ordinalIntegerPrimitive_spec h target <;>
    simp [hk, hb] <;> omega

theorem effectiveDivisionPrimitive_carries {lhs rhs c : IntegerPrimitive}
    (h : effectiveDivisionPrimitive target lhs rhs = some c)
    (hx : ¬ UnsignedMeetsSigned target lhs rhs) : Carries target c lhs ∧ Carries target c rhs := by
  have hl := lhs.bits_cases target
  have hr := rhs.bits_cases target
  have hp := pointerBits_cases target
  simp only [effectiveDivisionPrimitive, defaultIntegerPrimitive] at h
  unfold UnsignedMeetsSigned at hx
  rcases lhs.intKind_cases with kl | kl <;> rcases rhs.intKind_cases with kr | kr <;>
    simp only [kl, kr, reduceCtorEq, true_and, and_true, false_and, and_false, or_true,
      false_or, or_false, if_true, if_false] at h hx <;>
    split_ifs at h <;>
    exact ⟨carries_of_selected h (by unfold Room; grind),
      carries_of_selected h (by unfold Room; grind)⟩

theorem integerArithmeticPrimitive_isSome (op : BinOp) (lhs rhs : IntegerPrimitive) :
    ∃ c, integerArithmeticPrimitive target op lhs rhs = some c := by
  have hp := pointerBits_cases target
  simp only [integerArithmeticPrimitive, defaultIntegerPrimitive]
  split_ifs <;> exact ordinalIntegerPrimitive_isSome (by simp) (by omega)

theorem commonIntegerPrimitive_isSome (lhs rhs : IntegerPrimitive) :
    ∃ c, commonIntegerPrimitive target lhs rhs = some c := by
  have hl := lhs.bits_cases target
  have hr := rhs.bits_cases target
  simp only [commonIntegerPrimitive]
  split_ifs
  · exact ordinalIntegerPrimitive_isSome lhs.isInteger (by omega)
  all_goals exact ordinalIntegerPrimitive_isSome (by simp) (by omega)

theorem integerDivisionPrimitive_isSome (lhs rhs : OperandInfo) :
    ∃ c, integerDivisionPrimitive target lhs rhs = some c := by
  have hp := pointerBits_cases target
  simp only [integerDivisionPrimitive, effectiveDivisionPrimitive, defaultIntegerPrimitive]
  split_ifs <;> exact ordinalIntegerPrimitive_isSome (by simp) (by omega)

theorem integerComparisonPrimitive_isSome (lhs rhs : OperandInfo) :
    ∃ c, integerComparisonPrimitive target lhs rhs = some c := by
  simp only [integerComparisonPrimitive]
  split_ifs
  · exact commonIntegerPrimitive_isSome _ _
  · exact ⟨_, rfl⟩
  · exact ⟨_, rfl⟩
  · exact integerArithmeticPrimitive_isSome _ _ _

theorem OperandInfo.fits_iff {operand : OperandInfo} {p : IntegerPrimitive} :
    operand.fits target p = true ↔
      ∃ c, operand.constant = some c ∧ (p.intType target).Holds c.denote := by
  cases h : operand.constant <;> simp [fits, h, constIntFitsPrimitive_iff]

theorem Carries.holds {c p : IntegerPrimitive} (h : Carries target c p) {v : Int}
    (hv : (p.intType target).Holds v) : (c.intType target).Holds v :=
  IntType.Within.holds h hv

/-- An operand with the value it has at run time. A constant is what the operand folds to. -/
structure Operand (target : TargetInfo) extends OperandInfo where
  isInteger : primitive.family = .integer
  notCurrency : primitive.kind ≠ .currency
  value : Word (primitive.intType target)
  folds : ∀ c, constant = some c → c.Readable ∧ c.denote = value.val

def Operand.runtime (p : IntegerPrimitive) (hi : p.family = .integer) (hc : p.kind ≠ .currency)
    (value : Word (p.intType target)) : Operand target :=
  ⟨⟨p, none⟩, hi, hc, value, by simp⟩

theorem Operand.holds_of_fits {operand : Operand target} {p : IntegerPrimitive}
    (h : operand.fits target p = true) : (p.intType target).Holds operand.value.val := by
  obtain ⟨c, hc, hp⟩ := OperandInfo.fits_iff.mp h
  rwa [(operand.folds c hc).2] at hp

theorem Operand.fits_of_holds {operand : Operand target} {p : IntegerPrimitive}
    (hc : operand.constant.isSome = true) (h : (p.intType target).Holds operand.value.val) :
    operand.fits target p = true := by
  obtain ⟨c, hc⟩ := Option.isSome_iff_exists.mp hc
  exact OperandInfo.fits_iff.mpr ⟨c, hc, by rwa [(operand.folds c hc).2]⟩

theorem convertedDivisionOperand_holds (operand : Operand target) (other : IntegerPrimitive) :
    ((convertedDivisionOperand target operand.toOperandInfo other).intType target).Holds
      operand.value.val := by
  unfold convertedDivisionOperand
  split_ifs with h
  · rcases h.2 with hf | ⟨hk, hb⟩
    · exact operand.holds_of_fits hf
    · exact (carries_of_same (by rw [hk, h.1]) hb).holds operand.value.mem
  · exact operand.value.mem

theorem convertedDivisionOperand_cases (operand : OperandInfo) (other : IntegerPrimitive) :
    convertedDivisionOperand target operand other = other ∧ other.intKind = .unsigned ∨
      convertedDivisionOperand target operand other = operand.primitive := by
  unfold convertedDivisionOperand
  split_ifs with h
  · exact .inl ⟨rfl, h.1⟩
  · exact .inr rfl

def Operand.IsSmallConstant (operand : Operand target) : Prop :=
  operand.constant.isSome = true ∧ 0 ≤ operand.value.val ∧ operand.value.val ≤ 2^63-1

theorem unsigned64_holds {p : IntegerPrimitive} (hk : p.intKind = .unsigned)
    (hb : p.bits target = 64) {v : Int} : (p.intType target).Holds v ↔ 0 ≤ v ∧ v ≤ 2^64-1 := by
  rw [IntegerPrimitive.holds_of_unsigned hk, hb]

theorem signed64_holds {p : IntegerPrimitive} (hk : p.intKind = .signed)
    (hb : p.bits target = 64) {v : Int} : (p.intType target).Holds v ↔ -(2^63) ≤ v ∧ v ≤ 2^63-1 := by
  rw [IntegerPrimitive.holds_of_signed hk, hb]

theorem signed64_carries {c p : IntegerPrimitive} (hc : c.intKind = .signed)
    (hb : c.bits target = 64) (hp : p.intKind = .signed) : Carries target c p :=
  carries_of_same (by rw [hc, hp]) (by rw [hb]; exact p.bits_le target)

theorem effectiveDivisionPrimitive_of_meets {lhs rhs : IntegerPrimitive}
    (h : UnsignedMeetsSigned target lhs rhs) :
    effectiveDivisionPrimitive target lhs rhs = ordinalIntegerPrimitive .signed 64 := by
  rcases h with ⟨h₁, h₂, h₃⟩ | ⟨h₁, h₂, h₃⟩ <;>
    simp [effectiveDivisionPrimitive, h₁, h₂, h₃]

theorem convertedDivisionOperand_meets {lhs rhs : Operand target}
    (hk : (convertedDivisionOperand target lhs.toOperandInfo rhs.primitive).intKind = .unsigned)
    (hb : (convertedDivisionOperand target lhs.toOperandInfo rhs.primitive).bits target = 64)
    (hs : (convertedDivisionOperand target rhs.toOperandInfo lhs.primitive).intKind = .signed) :
    lhs.primitive.intKind = .unsigned ∧ lhs.primitive.bits target = 64 ∧
      rhs.primitive.intKind = .signed ∧ ¬ rhs.IsSmallConstant := by
  rcases convertedDivisionOperand_cases rhs.toOperandInfo lhs.primitive with
    ⟨he, hu⟩ | he
  · rw [he, hu] at hs; contradiction
  have hr : rhs.primitive.intKind = .signed := he ▸ hs
  rcases convertedDivisionOperand_cases lhs.toOperandInfo rhs.primitive with
    ⟨-, hu⟩ | hl
  · rw [hr] at hu; contradiction
  have hlk : lhs.primitive.intKind = .unsigned := hl ▸ hk
  have hlb : lhs.primitive.bits target = 64 := hl ▸ hb
  refine ⟨hlk, hlb, hr, fun ⟨hc, h₀, h₁⟩ => ?_⟩
  have hf : rhs.fits target lhs.primitive = true :=
    rhs.fits_of_holds hc ((unsigned64_holds hlk hlb).mpr ⟨h₀, by omega⟩)
  have hv : convertedDivisionOperand target rhs.toOperandInfo lhs.primitive = lhs.primitive := by
    simp [convertedDivisionOperand, hlk, hf]
  rw [hv, hlk] at hs
  contradiction

theorem integerDivisionPrimitive_holds {lhs rhs : Operand target} {c : IntegerPrimitive}
    (h : integerDivisionPrimitive target lhs.toOperandInfo rhs.toOperandInfo = some c)
    (hx : ¬ UnsignedMeetsSigned target lhs.primitive rhs.primitive ∨
      lhs.IsSmallConstant ∨ rhs.IsSmallConstant) :
    (c.intType target).Holds lhs.value.val ∧ (c.intType target).Holds rhs.value.val := by
  unfold integerDivisionPrimitive at h
  by_cases hm : UnsignedMeetsSigned target
      (convertedDivisionOperand target lhs.toOperandInfo rhs.primitive)
      (convertedDivisionOperand target rhs.toOperandInfo lhs.primitive)
  · rw [effectiveDivisionPrimitive_of_meets hm] at h
    obtain ⟨ck, cb, -⟩ := ordinalIntegerPrimitive_spec h target
    rcases hm with ⟨hk, hb, hs⟩ | ⟨hk, hb, hs⟩
    · obtain ⟨k₁, b₁, k₂, hn⟩ := convertedDivisionOperand_meets hk hb hs
      have hc : lhs.IsSmallConstant := by
        rcases hx with hx | hx | hx
        · exact absurd (.inl ⟨k₁, b₁, k₂⟩) hx
        · exact hx
        · exact absurd hx hn
      exact ⟨(signed64_holds ck cb).mpr ⟨by have := hc.2.1; omega, hc.2.2⟩,
        (signed64_carries ck cb k₂).holds rhs.value.mem⟩
    · obtain ⟨k₁, b₁, k₂, hn⟩ := convertedDivisionOperand_meets hk hb hs
      have hc : rhs.IsSmallConstant := by
        rcases hx with hx | hx | hx
        · exact absurd (.inr ⟨k₁, b₁, k₂⟩) hx
        · exact absurd hx hn
        · exact hx
      exact ⟨(signed64_carries ck cb k₂).holds lhs.value.mem,
        (signed64_holds ck cb).mpr ⟨by have := hc.2.1; omega, hc.2.2⟩⟩
  · obtain ⟨hl, hr⟩ := effectiveDivisionPrimitive_carries h hm
    exact ⟨hl.holds (convertedDivisionOperand_holds lhs _),
      hr.holds (convertedDivisionOperand_holds rhs _)⟩

theorem integerComparisonPrimitive_holds {lhs rhs : Operand target} {c : IntegerPrimitive}
    (h : integerComparisonPrimitive target lhs.toOperandInfo rhs.toOperandInfo = some c)
    (hx : ¬ UnsignedMeetsSigned target lhs.primitive rhs.primitive ∨
      lhs.fits target rhs.primitive = true ∨ rhs.fits target lhs.primitive = true) :
    (c.intType target).Holds lhs.value.val ∧ (c.intType target).Holds rhs.value.val := by
  simp only [integerComparisonPrimitive] at h
  split_ifs at h with h₁ h₂ h₃
  · have hm : ¬ UnsignedMeetsSigned target lhs.primitive rhs.primitive := by
      unfold UnsignedMeetsSigned; omega
    obtain ⟨hl, hr⟩ := commonIntegerPrimitive_carries h hm
    exact ⟨hl.holds lhs.value.mem, hr.holds rhs.value.mem⟩
  · cases h
    exact ⟨lhs.holds_of_fits h₂.2, rhs.value.mem⟩
  · cases h
    exact ⟨lhs.value.mem, rhs.holds_of_fits h₃.2⟩
  · have hm : ¬ UnsignedMeetsSigned target lhs.primitive rhs.primitive := by
      unfold UnsignedMeetsSigned at hx ⊢; grind
    obtain ⟨hl, hr⟩ := integerArithmeticPrimitive_carries h hm
    exact ⟨hl.holds lhs.value.mem, hr.holds rhs.value.mem⟩

end
end Tp2cc
