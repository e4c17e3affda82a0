import Tp2cc.Analysis.BinaryOperation

set_option autoImplicit false

namespace Tp2cc
open Machine Rt

/-- A folded constant with the number it stands for: its value is that number in `int64_t`, and its
bits are the two's complement of the number in a width that the number fits. A cast leaves the bits
in the width of its type, and everything else in 64 bits. -/
structure IntegerConstant where
  info : ConstIntExprInfo
  number : Int
  type : IntegerPrimitive
  width : Nat
  width_pos : 0 < width
  width_le : width ≤ 64
  typed : info.type = some type.kind
  held : (IntType.mk type.signed width width_pos).Holds number
  value : info.value.val = cxxInt64.reduce number
  bits : info.bits.val = number % 2^width

namespace IntegerConstant

theorem isSigned (c : IntegerConstant) : c.info.isSigned = c.type.signed := by
  simp [ConstIntExprInfo.isSigned, c.typed, IntegerPrimitive.signed, IntegerPrimitive.intKind]

theorem isUnsigned (c : IntegerConstant) : c.info.isUnsigned = !c.type.signed := by
  rcases c.type.intKind_cases with h | h <;>
    simp_all [ConstIntExprInfo.isUnsigned, c.typed, IntegerPrimitive.signed,
      IntegerPrimitive.intKind]

theorem bits_of_nonneg (c : IntegerConstant) (h : 0 ≤ c.number) : c.info.bits.val = c.number := by
  have hhi : c.number < 2^c.width := by
    have hhi := c.held.2
    have hsplit := (IntType.mk c.type.signed c.width c.width_pos).two_pow_split
    have hpos := IntType.two_pow_pos (c.width-1)
    simp only [IntType.hi] at hhi hsplit
    split at hhi <;> omega
  rw [c.bits, Int.emod_eq_of_lt h hhi]

theorem number_bounds (c : IntegerConstant) : (c.type.signed = true ∧ cxxInt64.Holds c.number) ∨
    (c.type.signed = false ∧ cxxUInt64.Holds c.number) := by
  have hbits : (IntType.mk c.type.signed c.width c.width_pos).bits ≤ 64 := c.width_le
  cases hs : c.type.signed with
  | true =>
    have hwithin : (IntType.mk c.type.signed c.width c.width_pos).Within cxxInt64 :=
      IntType.within_of_same hs hbits
    exact .inl ⟨rfl, hwithin.holds c.held⟩
  | false =>
    have hwithin : (IntType.mk c.type.signed c.width c.width_pos).Within cxxUInt64 :=
      IntType.within_of_same hs hbits
    exact .inr ⟨rfl, hwithin.holds c.held⟩

theorem denote_eq (c : IntegerConstant) : c.info.denote = c.number := by
  rw [ConstIntExprInfo.denote, c.isUnsigned]
  rcases c.number_bounds with ⟨hs, h⟩ | ⟨hs, h⟩
  · rw [hs, c.value, IntType.reduce_of_holds h]
    rfl
  · rw [hs, c.bits_of_nonneg ((holds_uint64 _).mp h).1]
    rfl

theorem readable (c : IntegerConstant) : c.info.Readable := by
  refine ⟨by simp [c.isSigned, c.isUnsigned], fun h => ?_, fun h => ?_⟩
  · rcases c.number_bounds with ⟨-, hn⟩ | ⟨-, hn⟩
    · rw [c.value, IntType.reduce_of_holds hn] at h ⊢
      exact c.bits_of_nonneg h
    · rw [holds_uint64] at hn
      have hsmall : c.number ≤ 2^63-1 := by
        by_contra hlarge
        rw [c.value, reduce_int64_of_large (by omega) hn.2] at h
        omega
      rw [c.bits_of_nonneg hn.1, c.value, reduce_int64_of_small (by omega) hsmall]
  · have hs : c.type.signed = false := by simpa [c.isUnsigned] using h
    rcases c.number_bounds with ⟨hs', -⟩ | ⟨-, hn⟩
    · rw [hs] at hs'
      cases hs'
    · rw [c.value, c.bits_of_nonneg ((holds_uint64 _).mp hn).1]

def operand (c : IntegerConstant) : OperandInfo := ⟨c.type, some c.info⟩

def AtMost (a b : IntegerConstant) : Prop :=
  compareConstantIntegers .ltEq a.operand b.operand = some true

theorem compareConstantIntegers_operands (a b : IntegerConstant) {op : BinOp}
    (h : op.isComparison = true) :
    compareConstantIntegers op a.operand b.operand = some (op.compares a.number b.number) := by
  rw [compareConstantIntegers_eq h rfl rfl a.readable b.readable, a.denote_eq, b.denote_eq]

theorem atMost_iff (a b : IntegerConstant) : a.AtMost b ↔ a.number ≤ b.number := by
  rw [AtMost, compareConstantIntegers_operands a b rfl]
  simp [BinOp.compares]

theorem bindBinaryOperation_constant {target : TargetInfo} {a b : IntegerConstant} {op : BinOp}
    (h : op.isComparison = true) {q : Bool} {bound : BoundBinaryOperation}
    (hb : bindBinaryOperation target op q a.operand b.operand = some bound) :
    bound.kind = .integerCompare ∧
      bound.constantBoolean = some (op.compares a.number b.number) := by
  have hc := compareConstantIntegers_operands a b h
  unfold bindBinaryOperation at hb
  simp only at hb
  split_ifs at hb
  split at hb
  all_goals first
    | exact absurd h (by decide)
    | cases hb
    | obtain ⟨carrier, -, rfl⟩ := Option.map_eq_some_iff.mp hb
      exact ⟨rfl, hc⟩

/-- Folding compares constants as their numbers. The order it defines is a total preorder, and every
folded comparison that is generated agrees with it. -/
theorem compareConstantIntegers_preorder :
    (∀ (a b : IntegerConstant) (op : BinOp), op.isComparison = true →
      compareConstantIntegers op a.operand b.operand = some (op.compares a.number b.number)) ∧
    (∀ a : IntegerConstant, a.AtMost a) ∧
    (∀ a b c : IntegerConstant, a.AtMost b → b.AtMost c → a.AtMost c) ∧
    (∀ a b : IntegerConstant, a.AtMost b ∨ b.AtMost a) ∧
    ∀ (target : TargetInfo) (a b : IntegerConstant) (op : BinOp) (q : Bool)
      (bound : BoundBinaryOperation) (s t : IntType) (l : Word s) (r : Word t),
      op.isComparison = true → bindBinaryOperation target op q a.operand b.operand = some bound →
      binaryToCxx target op bound l r = .ok (.bool (op.compares a.number b.number)) := by
  simp only [atMost_iff]
  refine ⟨fun a b op h => compareConstantIntegers_operands a b h, fun a => le_refl _,
    fun a b c => le_trans, fun a b => le_total _ _, ?_⟩
  intro target a b op q bound s t l r h hb
  obtain ⟨hk, hc⟩ := bindBinaryOperation_constant h hb
  simp only [binaryToCxx, hk, hc]

theorem eight_le : 8 ≤ 64 := by decide
theorem sixtyFour_le : 64 ≤ 64 := le_refl 64

/-- `shortint(-1)`, whose bits are 255. -/
def shortIntMinusOne : IntegerConstant where
  info := ⟨.ofInt _ (-1), .ofInt _ 255, some .shortInt⟩
  number := -1
  type := ⟨.shortInt, PrimitiveKind.shortInt_integer⟩
  width := 8
  width_pos := IntType.eight_pos
  width_le := eight_le
  typed := rfl
  held := by decide
  value := by decide
  bits := by decide

/-- 2^64-1, whose value in `int64_t` is -1 too. -/
def qWordLast : IntegerConstant where
  info := ⟨.ofInt _ (2^64-1), .ofInt _ (2^64-1), some .qWord⟩
  number := 2^64-1
  type := ⟨.qWord, PrimitiveKind.qWord_integer⟩
  width := 64
  width_pos := IntType.sixtyFour_pos
  width_le := sixtyFour_le
  typed := rfl
  held := by decide
  value := by decide
  bits := by decide

theorem compareConstantIntegers_qWordLast :
    compareConstantIntegers .eq shortIntMinusOne.operand qWordLast.operand = some false ∧
      compareConstantIntegers .lt shortIntMinusOne.operand qWordLast.operand = some true :=
  ⟨compareConstantIntegers_preorder.1 _ _ .eq rfl, compareConstantIntegers_preorder.1 _ _ .lt rfl⟩

end IntegerConstant
end Tp2cc
