import Tp2cc.Analysis.ConstFoldLaw
import Tp2cc.Machine.Shift

set_option autoImplicit false

namespace Tp2cc
open Machine Rt

namespace ConstIntExprInfo

/-- The value field is the number the constant stands for, at 64 bits. -/
def Faithful (info : ConstIntExprInfo) : Prop := info.value.val = cxxInt64.reduce info.denote

theorem faithful_of_cast {info : ConstIntExprInfo}
    (h : info.isUnsigned = true → info.value = info.bits.cast _) : info.Faithful := by
  unfold Faithful denote
  split_ifs with hu
  · rw [h hu, Word.cast_val]
  · rw [IntType.reduce_of_holds info.value.mem]

theorem faithful_ofValue (value : Word cxxInt64) (type : Option PrimitiveKind) :
    (ofValue value type).Faithful := by
  refine faithful_of_cast fun _ => Word.ext ?_
  have h := IntType.reduce_through (s := cxxUInt64) (t := cxxInt64) (le_refl _) value.val
  rw [IntType.reduce_of_holds value.mem] at h
  exact h.symm

theorem exists_word (info : ConstIntExprInfo) :
    ∃ (s : IntType) (w : Word s), w.val = info.denote := by
  unfold denote
  split_ifs
  · exact ⟨_, info.bits, rfl⟩
  · exact ⟨_, info.value, rfl⟩

end ConstIntExprInfo

def Folded.Faithful (f : Folded) : Prop := ∀ info, f.value? = some info → info.Faithful

namespace Folded

theorem faithful_value {info : ConstIntExprInfo} (h : info.Faithful) : (value info).Faithful := by
  intro found hf
  cases hf
  exact h

theorem faithful_failed (overflow : Bool) : (failed overflow).Faithful := by
  intro found hf
  cases hf

theorem Faithful.bind {f : Folded} (hf : f.Faithful) {g : ConstIntExprInfo → Folded}
    (hg : ∀ info, info.Faithful → (g info).Faithful) : (f.bind g).Faithful := by
  cases f with
  | value info => exact hg info (hf info rfl)
  | failed overflow => exact faithful_failed overflow

end Folded

theorem foldSigned_faithful (value : Word cxxInt64) : (foldSigned value).Faithful :=
  ConstIntExprInfo.faithful_ofValue ..

theorem foldUnsigned_faithful (bits : Word cxxUInt64) : (foldUnsigned bits).Faithful :=
  ConstIntExprInfo.faithful_of_cast fun _ => rfl

theorem foldLiteral_faithful (value : Word cxxUInt64) : (foldLiteral value).Faithful := by
  unfold foldLiteral
  split_ifs
  · exact foldUnsigned_faithful value
  · exact foldSigned_faithful _

theorem foldUnary_faithful (op : UnOp) {operand : ConstIntExprInfo} (h : operand.Faithful) :
    (foldUnary op operand).Faithful := by
  cases op with
  | plus => exact Folded.faithful_value h
  | not => exact Folded.faithful_failed _
  | neg =>
    simp only [foldUnary]
    cases checkedSubInt64 (.ofInt _ 0) operand.value with
    | some value => exact Folded.faithful_value (foldSigned_faithful value)
    | none => exact Folded.faithful_failed _

theorem makeResult_faithful (negative : Bool) (result : Word cxxUInt64) :
    (makeResult negative result).Faithful := by
  unfold makeResult
  split_ifs
  · exact Folded.faithful_failed _
  · exact Folded.faithful_value (foldSigned_faithful _)
  · exact Folded.faithful_value (foldSigned_faithful _)
  · exact Folded.faithful_value (foldSigned_faithful _)
  · exact Folded.faithful_value (foldUnsigned_faithful _)

theorem addSignedMagnitudes_faithful (ln rn : Bool) (l r : Word cxxUInt64) :
    (addSignedMagnitudes ln l rn r).Faithful := by
  unfold addSignedMagnitudes
  split_ifs
  · exact makeResult_faithful _ _
  · exact makeResult_faithful _ _
  · exact Folded.faithful_failed _
  · exact makeResult_faithful _ _

section
variable (target : TargetInfo)

theorem foldBinary_faithful (op : ConstBinOp) (kind : BoundBinaryKind)
    (lhs rhs : ConstIntExprInfo) : (foldBinary target op kind lhs rhs).Faithful := by
  cases kind <;> simp only [foldBinary]
  case integerAdd => exact addSignedMagnitudes_faithful _ _ _ _
  case integerSub => exact addSignedMagnitudes_faithful _ _ _ _
  case integerMul =>
    split_ifs
    · exact Folded.faithful_failed _
    · exact makeResult_faithful _ _
  case integerDiv =>
    split_ifs
    · exact Folded.faithful_failed _
    · exact makeResult_faithful _ _
  case integerMod =>
    split_ifs
    · exact Folded.faithful_failed _
    · exact makeResult_faithful _ _
  case integerBitwise => exact Folded.faithful_value (foldSigned_faithful _)
  case integerCompare => exact Folded.faithful_failed _
  case integerShift =>
    cases lhs.primitive with
    | none => exact Folded.faithful_failed _
    | some p =>
      cases hc : shiftCarrierPrimitive target p with
      | none =>
        simp only [Option.bind_eq_bind, Option.bind_some, hc, Option.bind_none]
        exact Folded.faithful_failed _
      | some c =>
        simp only [Option.bind_eq_bind, Option.bind_some, hc]
        exact Folded.faithful_value (ConstIntExprInfo.faithful_ofValue ..)

theorem evalBoundOrdinalStep_faithful (bound : BoundOrdinalStep) (storage : IntegerPrimitive)
    (source : ConstIntExprInfo) :
    (evalBoundOrdinalStep target bound storage source).Faithful := by
  simp only [evalBoundOrdinalStep]
  split_ifs with h₁ h₂ hs
  · exact Folded.faithful_failed _
  · exact Folded.faithful_failed _
  · refine Folded.faithful_value (ConstIntExprInfo.faithful_of_cast fun hu => ?_)
    have hk : storage.kind.info.intKind = .signed := hs
    simp [ConstIntExprInfo.isUnsigned, hk] at hu
  · exact Folded.faithful_value (ConstIntExprInfo.faithful_of_cast fun _ => rfl)

theorem evalConstIntCast_faithful (p : IntegerPrimitive) (operand : ConstIntExprInfo) :
    (evalConstIntCast target p operand).Faithful := by
  refine ConstIntExprInfo.faithful_of_cast fun hu => ?_
  have ht : (convertConstIntValue target operand p).type = p := by
    simp only [convertConstIntValue]
    split_ifs <;> rfl
  have hk : p.intKind = .unsigned := by
    rw [IntegerPrimitive.intKind]
    simpa [evalConstIntCast, ConstIntExprInfo.isUnsigned, ht] using hu
  simp [evalConstIntCast, convertConstIntValue, hk]

/-- A scope whose named constants were folded as any other constant is. -/
structure ConstScope (ι : Type) extends IdentEnv ι where
  faithful : ∀ name, (fold name).Faithful

def closedScope : ConstScope Empty := ⟨closedEnv, fun name => name.elim⟩

variable {ι : Type} (scope : ConstScope ι)

def foldIn (e : ConstExpr ι) : Folded := evalConstIntExpr target scope.toIdentEnv e

theorem foldIn_faithful (e : ConstExpr ι) : (foldIn target scope e).Faithful := by
  induction e with
  | lit value =>
    rw [foldIn, evalConstIntExpr]
    exact Folded.faithful_value (foldLiteral_faithful value)
  | ident name =>
    rw [foldIn, evalConstIntExpr]
    exact scope.faithful name
  | unary op operand ih =>
    rw [foldIn, evalConstIntExpr]
    exact Folded.Faithful.bind ih fun info h => foldUnary_faithful op h
  | binary op lhs rhs q ihl ihr =>
    rw [foldIn, evalConstIntExpr]
    split
    · exact Folded.faithful_failed _
    · unfold Folded.bind₂
      split
      · exact foldBinary_faithful target _ _ _ _
      · exact Folded.faithful_failed _
  | step subtracts operand q r ih =>
    rw [foldIn, evalConstIntExpr]
    split
    · exact Folded.faithful_failed _
    · exact Folded.Faithful.bind ih fun info _ => evalBoundOrdinalStep_faithful target _ _ _
  | cast p plain operand ih =>
    rw [foldIn, evalConstIntExpr]
    exact Folded.Faithful.bind ih fun info _ =>
      Folded.faithful_value (evalConstIntCast_faithful target _ _)

end

/-! The shift of a carrier, as the runtime helpers and as the folder compute it. -/
section
variable {s t C : IntType}

theorem masked_count (hC : C.bits = 32 ∨ C.bits = 64) (w : Word t) :
    ((w.cast cxxUInt64).land (.ofInt cxxUInt64 (C.bits-1))).val.toNat = C.shiftCount w.val := by
  unfold IntType.shiftCount
  rcases hC with h | h <;> rw [h]
  · have := Word.land_mask_val (t := cxxUInt64) (k := 5) rfl (by decide) w.val
    exact congrArg Int.toNat this
  · have := Word.land_mask_val (t := cxxUInt64) (k := 6) rfl (by decide) w.val
    exact congrArg Int.toNat this

theorem pShl_val (hC : C.bits = 32 ∨ C.bits = 64) (x : Word s) (y : Word t) :
    (pShl C x y).val = C.shift true x.val y.val := by
  have h64 : C.bits ≤ cxxUInt64.bits := show C.bits ≤ 64 by omega
  have hx (c : Int) : cxxUInt64.reduce (C.twin.reduce x.val)*c % 2^C.bits =
      x.val*c % 2^C.bits := by
    have ht : C.twin.reduce x.val % 2^C.bits = x.val % 2^C.bits := C.twin.reduce_emod x.val
    rw [Int.mul_emod, IntType.reduce_emod_of_le h64, ht, ← Int.mul_emod]
  rw [IntType.shift_left, pShl, shiftAmount, masked_count hC]
  split_ifs with hb
  · simp only [Word.cast_val, reduce_twin, Word.shiftLeft_val]
    rw [IntType.reduce_through h64]
    exact IntType.reduce_congr (hx _)
  · -- the 32-bit carrier shifts in `uint32_t` and masks the result once more
    have h32 : C.bits = 32 := by omega
    have hmask := Word.land_mask_val (t := cxxUInt64) (k := 32) rfl (by decide)
    simp only [Word.cast_val, reduce_twin, h32]
    rw [Word.cast, hmask, Word.shiftLeft_val]
    refine IntType.reduce_congr ?_
    rw [h32] at hx ⊢
    rw [Int.emod_emod_of_dvd _ (dvd_refl _), IntType.reduce_emod_of_le (le_refl 32), ← hx]
    simp only [Word.cast_val]
    rw [Int.mul_emod, IntType.reduce_emod_of_le (le_refl 32), ← Int.mul_emod]

theorem pShr_val (hC : C.bits = 32 ∨ C.bits = 64) (x : Word s) (y : Word t) :
    (pShr C x y).val = C.shift false x.val y.val := by
  have hx : C.twin.reduce x.val % 2^C.bits = x.val % 2^C.bits := IntType.reduce_emod C.twin _
  simp only [pShr, Word.cast_val, Word.shiftRight_val, shiftAmount, masked_count hC, reduce_twin]
  rw [IntType.shift, IntType.shiftedBits, if_neg Bool.false_ne_true, ← hx]
  rfl

end

section
variable {target : TargetInfo}

theorem shiftCarrierPrimitive_spec {p c : IntegerPrimitive}
    (h : shiftCarrierPrimitive target p = some c) :
    c.intKind = p.intKind ∧ c.bits target = max (p.bits target) 32 ∧
      (c.bits target = 32 ∨ c.bits target = 64) := by
  have hp := p.bits_cases target
  unfold shiftCarrierPrimitive at h
  split_ifs at h with hb
  · cases h
    exact ⟨rfl, by omega, by omega⟩
  · obtain ⟨hk, hbits, -⟩ := ordinalIntegerPrimitive_spec h target
    exact ⟨hk, by omega, by omega⟩

theorem shiftedWord_val {C : IntType} (hC : C.bits ≤ 64) (left : Bool) (a : Word cxxInt64)
    (s : Int) :
    (if left = true then
        Word.ofInt cxxUInt64 (lowBits ((Word.ofInt cxxUInt64
          (lowBits (a.cast cxxUInt64).val C.bits)).shiftLeft (C.shiftCount s)).val C.bits)
      else (Word.ofInt cxxUInt64 (lowBits (a.cast cxxUInt64).val C.bits)).shiftRight
        (C.shiftCount s)) =
      .ofInt cxxUInt64 (C.shiftedBits left a.val s) := by
  have hb := lowBits_bounds a.val C.bits
  have h64 : (2 : Int)^C.bits ≤ 2^64 := IntType.two_pow_mono hC
  have hv : (Word.ofInt cxxUInt64 (lowBits (a.cast cxxUInt64).val C.bits)).val =
      lowBits a.val C.bits := by
    rw [Word.cast_val, lowBits_reduce hC]
    exact reduce_uint64_of_nonneg hb.1 (by omega)
  cases left with
  | true =>
    have h : lowBits (cxxUInt64.reduce (lowBits a.val C.bits*2^C.shiftCount s)) C.bits =
        a.val*2^C.shiftCount s % 2^C.bits := by
      rw [lowBits_reduce hC, lowBits, lowBits, Int.mul_emod, Int.emod_emod, ← Int.mul_emod]
    rw [if_pos rfl, Word.shiftLeft_val, hv, h]
    rfl
  | false =>
    have hm : lowBits a.val C.bits % 2^cxxUInt64.bits = lowBits a.val C.bits :=
      Int.emod_eq_of_lt hb.1 (lt_of_lt_of_le (by omega) h64)
    refine Word.ext ?_
    rw [if_neg Bool.false_ne_true, Word.shiftRight_val, hv, hm]
    rfl

theorem extendedShift_val {c : IntegerPrimitive} (hc : 32 ≤ c.bits target) {k : Int}
    (hk : 0 ≤ k ∧ k < 2^(c.bits target)) :
    ((if c.intKind = .unsigned ∨ c.bits target = 64 then (Word.ofInt cxxUInt64 k).cast cxxInt64
      else if (Word.ofInt cxxUInt64 k).val < 2^(c.bits target-1) then
        (Word.ofInt cxxUInt64 k).cast cxxInt64
      else (Word.ofInt cxxUInt64 ((Word.ofInt cxxUInt64 k).val+(2^64-2^(c.bits target)))).cast
        cxxInt64)).val = cxxInt64.reduce ((c.intType target).reduce k) := by
  have hlow : lowBits k (c.bits target) = k := Int.emod_eq_of_lt hk.1 hk.2
  have hcast : ((Word.ofInt cxxUInt64 k).cast cxxInt64).val = cxxInt64.reduce k :=
    IntType.reduce_through (s := cxxUInt64) (t := cxxInt64) (le_refl _) k
  cases c.intKind_cases with
  | inr hu => rw [if_pos (.inl hu), hcast, reduce_unsigned hu, hlow]
  | inl hs =>
    have hx := @signExtend_val target c hs k
    rw [hlow] at hx
    rw [reduce_int64_of_signed hs, ← hx, signExtend]
    by_cases hw : c.bits target = 64
    · rw [if_pos (.inr hw), if_pos (.inl (by omega))]
    · have hle := c.bits_le target
      rw [if_neg (by simp [hs, hw])]
      by_cases hl : (Word.ofInt cxxUInt64 k).val < 2^(c.bits target-1)
      · rw [if_pos hl, if_pos (.inr hl)]
      · rw [if_neg hl, if_neg (by omega)]

theorem checkedPascalShiftInt64_val {p c : IntegerPrimitive}
    (hc : shiftCarrierPrimitive target p = some c) (left : Bool) (a s : Word cxxInt64) :
    (checkedPascalShiftInt64 target left a p s).val =
      cxxInt64.reduce ((c.intType target).shift left a.val s.val) := by
  obtain ⟨hk, hbits, hC⟩ := shiftCarrierPrimitive_spec hc
  have hcount := masked_count (C := c.intType target) hC s
  rw [IntegerPrimitive.intType_bits] at hcount
  have hword := shiftedWord_val (c.intType_bits_le target) left a s.val
  rw [checkedPascalShiftInt64, ← hbits, ← hk, hcount]
  rw [IntegerPrimitive.intType_bits] at hword
  rw [hword]
  exact extendedShift_val (by omega) ((c.intType target).shiftedBits_bounds left a.val s.val)

theorem ofValue_denote {c : IntegerPrimitive} {w : Word cxxInt64} {v : Int}
    (hin : (c.intType target).Holds v) (h : w.val = cxxInt64.reduce v) :
    (ConstIntExprInfo.ofValue w (some c.kind)).denote = v := by
  have hwide := IntegerPrimitive.widest_holds hin
  unfold IntegerPrimitive.widest at hwide
  cases c.intKind_cases with
  | inl hs =>
    have hk : c.kind.info.intKind = .signed := hs
    rw [if_pos (IntegerPrimitive.signed_iff.mpr hs)] at hwide
    rw [IntType.reduce_of_holds hwide] at h
    simpa [ConstIntExprInfo.denote, ConstIntExprInfo.isUnsigned, ConstIntExprInfo.ofValue, hk]
      using h
  | inr hu =>
    have hk : c.kind.info.intKind = .unsigned := hu
    rw [if_neg (by simp [IntegerPrimitive.not_signed_iff.mpr hu])] at hwide
    have hb := IntType.reduce_through (s := cxxInt64) (t := cxxUInt64) (le_refl _) v
    rw [IntType.reduce_of_holds hwide, ← h] at hb
    simpa [ConstIntExprInfo.denote, ConstIntExprInfo.isUnsigned, ConstIntExprInfo.ofValue, hk]
      using hb

theorem emod_bits_congr {c : IntegerPrimitive} (hc : c.bits target = 32 ∨ c.bits target = 64)
    {v w : Int} (h : v % 2^6 = w % 2^6) :
    v % ((c.intType target).bits : Int) = w % ((c.intType target).bits : Int) := by
  have hd : ((c.intType target).bits : Int) ∣ 2^6 := by
    rw [IntegerPrimitive.intType_bits]
    cases hc with
    | inl h32 => rw [h32]; decide
    | inr h64 => rw [h64]; decide
  rw [← Int.emod_emod_of_dvd v hd, h, Int.emod_emod_of_dvd w hd]

def shiftOp (left : Bool) : ConstBinOp := if left then .shl else .shr

theorem bindConstBinary_shift {left q : Bool} {l r : Option IntegerPrimitive}
    {lc rc : Option ConstIntExprInfo} {bound : BoundBinaryOperation}
    (h : bindConstBinary target (shiftOp left) q l r lc rc = some bound) :
    ∃ c amount, bound = ⟨.integerShift, c, amount, .integer c, q, none⟩ ∧
      (c.bits target = 32 ∨ c.bits target = 64) ∧
      (amount.bits target = 32 ∨ amount.bits target = 64) := by
  simp only [bindConstBinary, Option.bind_eq_bind, Option.bind_eq_some_iff] at h
  obtain ⟨p, -, p', -, h⟩ := h
  have hshift : (bindBinaryOperation target (shiftOp left).binOp q ⟨p, lc⟩ ⟨p', rc⟩ = some bound) →
      (do
        let carrier ← shiftCarrierPrimitive target p
        let amount ← defaultIntegerPrimitive target .signed
        return (⟨.integerShift, carrier, amount, .integer carrier, q, none⟩ :
          BoundBinaryOperation)) = some bound := by
    intro h
    unfold bindBinaryOperation at h
    simp only at h
    split_ifs at h
    cases left <;> exact h
  have hs := hshift h
  simp only [Option.bind_eq_bind, Option.bind_eq_some_iff] at hs
  obtain ⟨c, hc, amount, ha, hb⟩ := hs
  obtain ⟨-, hbits, -⟩ := ordinalIntegerPrimitive_spec ha target
  cases hb
  exact ⟨c, amount, rfl, (shiftCarrierPrimitive_spec hc).2.2, by rw [hbits]; exact target.valid⟩

theorem binaryToCxx_shift {c amount : IntegerPrimitive} (left q : Bool)
    (hc : c.bits target = 32 ∨ c.bits target = 64)
    (ha : amount.bits target = 32 ∨ amount.bits target = 64) {s t : IntType} (x : Word s)
    (y : Word t) :
    binaryToCxx target (shiftOp left).binOp ⟨.integerShift, c, amount, .integer c, q, none⟩ x y =
      .ok (.int ((c.intType target).shift left x.val y.val)) := by
  have hx : (boundOperand target x c).val % 2^(c.intType target).bits =
      x.val % 2^(c.intType target).bits := IntType.reduce_emod _ _
  have hy : (boundOperand target y amount).val % ((c.intType target).bits : Int) =
      y.val % ((c.intType target).bits : Int) := by
    refine emod_bits_congr hc (IntType.reduce_emod_of_le ?_ y.val)
    rw [IntegerPrimitive.intType_bits]
    omega
  rw [← IntType.shift_congr hx hy]
  cases left with
  | true => rw [← pShl_val hc]; rfl
  | false => rw [← pShr_val hc]; rfl

theorem foldBinary_shift_carrier {left : Bool} {a b info : ConstIntExprInfo}
    (h : foldBinary target (shiftOp left) .integerShift a b = .value info) :
    ∃ p c, a.primitive = some p ∧ shiftCarrierPrimitive target p = some c := by
  simp only [foldBinary, Option.bind_eq_bind] at h
  cases hp : a.primitive with
  | none => rw [hp] at h; contradiction
  | some p =>
    rw [hp, Option.bind_some] at h
    cases hc : shiftCarrierPrimitive target p with
    | none => rw [hc] at h; contradiction
    | some c => exact ⟨p, c, rfl, hc⟩

theorem foldBinary_shift {left : Bool} {a b : ConstIntExprInfo} (ha : a.Faithful)
    (hb : b.Faithful) {p c : IntegerPrimitive} (hp : a.primitive = some p)
    (hc : shiftCarrierPrimitive target p = some c) :
    ∃ info, foldBinary target (shiftOp left) .integerShift a b = .value info ∧
      info.denote = (c.intType target).shift left a.denote b.denote := by
  have hleft : decide (shiftOp left = .shl) = left := by cases left <;> rfl
  obtain ⟨-, -, hC⟩ := shiftCarrierPrimitive_spec hc
  have h64 : (c.intType target).bits ≤ cxxInt64.bits := c.bits_le target
  have hva : a.value.val % 2^(c.intType target).bits = a.denote % 2^(c.intType target).bits := by
    rw [ha, IntType.reduce_emod_of_le h64]
  have hvb : b.value.val % ((c.intType target).bits : Int) =
      b.denote % ((c.intType target).bits : Int) := by
    refine emod_bits_congr hC ?_
    rw [hb, IntType.reduce_emod_of_le (by decide : 6 ≤ cxxInt64.bits)]
  have hval := checkedPascalShiftInt64_val hc left a.value b.value
  rw [IntType.shift_congr hva hvb] at hval
  refine ⟨.ofValue (checkedPascalShiftInt64 target left a.value p b.value) (some c.kind), ?_,
    ofValue_denote ((c.intType target).reduce_holds _) hval⟩
  simp only [foldBinary, hleft, hp, hc, Option.bind_eq_bind, Option.bind_some]
  rfl

end

section
variable (target : TargetInfo) {ι : Type} (scope : ConstScope ι) (left : Bool) (l r : ConstExpr ι)
  (q : Bool)

/-- What `bind_binary_operation` records for `l shl r` or `l shr r`. -/
def bindShift : Option BoundBinaryOperation :=
  bindConstBinary target (shiftOp left) q (deduceType target scope.toIdentEnv l)
    (deduceType target scope.toIdentEnv r) (foldIn target scope l).value?
    (foldIn target scope r).value?

/-- The folded shift is what the emitted call returns for the folded operands. -/
def FoldsAsEmitted : Prop :=
  ∀ a b info bound, foldIn target scope l = .value a → foldIn target scope r = .value b →
    foldIn target scope (.binary (shiftOp left) l r q) = .value info →
    bindShift target scope left l r q = some bound →
    ∀ (s t : IntType) (x : Word s) (y : Word t), x.val = a.denote → y.val = b.denote →
      binaryToCxx target (shiftOp left).binOp bound x y = .ok (.int info.denote)

/-- The carrier of the type the left operand folds to and the carrier recorded for it shift the
operand alike. -/
def CarriersAlike : Prop :=
  ∀ a b p c bound, foldIn target scope l = .value a → foldIn target scope r = .value b →
    a.primitive = some p → shiftCarrierPrimitive target p = some c →
    bindShift target scope left l r q = some bound →
    (c.intType target).ShiftsAlike (bound.lhs.intType target) left a.denote b.denote

variable {target scope left l r q}

theorem foldIn_shift {bound : BoundBinaryOperation} {a b : ConstIntExprInfo}
    (hb : bindShift target scope left l r q = some bound) (hl : foldIn target scope l = .value a)
    (hr : foldIn target scope r = .value b) :
    foldIn target scope (.binary (shiftOp left) l r q) =
      foldBinary target (shiftOp left) .integerShift a b := by
  obtain ⟨c, amount, rfl, -⟩ := bindConstBinary_shift hb
  rw [foldIn] at hl hr
  rw [bindShift, foldIn, foldIn] at hb
  rw [foldIn, evalConstIntExpr, hb, hl, hr]
  rfl

theorem shift_sides {bound : BoundBinaryOperation} {a b : ConstIntExprInfo} {p c : IntegerPrimitive}
    (hb : bindShift target scope left l r q = some bound) (hl : foldIn target scope l = .value a)
    (hr : foldIn target scope r = .value b) (hp : a.primitive = some p)
    (hc : shiftCarrierPrimitive target p = some c) :
    ∃ info, foldIn target scope (.binary (shiftOp left) l r q) = .value info ∧
      info.denote = (c.intType target).shift left a.denote b.denote ∧
      (∀ (s t : IntType) (x : Word s) (y : Word t), x.val = a.denote → y.val = b.denote →
        binaryToCxx target (shiftOp left).binOp bound x y =
          .ok (.int ((bound.lhs.intType target).shift left a.denote b.denote))) ∧
      ((c.intType target).shift left a.denote b.denote =
          (bound.lhs.intType target).shift left a.denote b.denote ↔
        (c.intType target).ShiftsAlike (bound.lhs.intType target) left a.denote b.denote) := by
  have hfold := foldIn_shift hb hl hr
  have ha : a.Faithful := foldIn_faithful target scope l a (by rw [hl]; rfl)
  have hb' : b.Faithful := foldIn_faithful target scope r b (by rw [hr]; rfl)
  obtain ⟨carrier, amount, rfl, hcarrier, hamount⟩ := bindConstBinary_shift hb
  obtain ⟨-, -, hC⟩ := shiftCarrierPrimitive_spec hc
  obtain ⟨info, hi, hd⟩ := @foldBinary_shift target left a b ha hb' p c hp hc
  refine ⟨info, by rw [hfold, hi], hd, ?_, ?_⟩
  · intro s t x y hx hy
    rw [binaryToCxx_shift left q hcarrier hamount, hx, hy]
  · refine IntType.shift_eq_iff ?_
    simp only [IntegerPrimitive.intType_bits]
    omega

/-- A constant shift folds to what its emitted call returns exactly where the two carriers shift
the operand alike. -/
theorem foldsAsEmitted_iff (target : TargetInfo) {ι : Type} (scope : ConstScope ι) (left : Bool)
    (l r : ConstExpr ι) (q : Bool) :
    FoldsAsEmitted target scope left l r q ↔ CarriersAlike target scope left l r q := by
  constructor
  · intro h a b p c bound hl hr hp hc hb
    obtain ⟨info, hi, hd, hcall, hiff⟩ := shift_sides hb hl hr hp hc
    obtain ⟨s, x, hx⟩ := a.exists_word
    obtain ⟨t, y, hy⟩ := b.exists_word
    have heq := h a b info bound hl hr hi hb s t x y hx hy
    rw [hcall s t x y hx hy, Except.ok.injEq, CxxValue.int.injEq, hd] at heq
    exact hiff.mp heq.symm
  · intro h a b info bound hl hr hi hb s t x y hx hy
    have hf := hi
    rw [foldIn_shift hb hl hr] at hf
    obtain ⟨p, c, hp, hc⟩ := foldBinary_shift_carrier hf
    obtain ⟨found, hfound, hd, hcall, hiff⟩ := shift_sides hb hl hr hp hc
    rw [hi] at hfound
    cases hfound
    rw [hcall s t x y hx hy, hd, hiff.mpr (h a b p c bound hl hr hp hc hb)]

/-- `(1+1) shl 40` folds in 32 bits to 512 and is emitted in 64, where it is `2^41`. -/
theorem not_foldsAsEmitted_sum :
    let one : ConstExpr Empty := .lit (.ofInt _ 1)
    ¬ FoldsAsEmitted ⟨64, .inr rfl⟩ closedScope true (.binary .add one one true)
      (.lit (.ofInt _ 40)) true := by
  intro one h
  let target : TargetInfo := ⟨64, .inr rfl⟩
  let sum : ConstExpr Empty := .binary .add one one true
  let count : ConstExpr Empty := .lit (.ofInt _ 40)
  have hl : foldIn target closedScope sum = .value (foldSigned (.ofInt _ 2)) := by decide
  have hr : foldIn target closedScope count = .value (foldSigned (.ofInt _ 40)) := by decide
  have hb : bindShift target closedScope true sum count true =
      some ⟨.integerShift, ⟨.int64, by decide⟩, ⟨.int64, by decide⟩, .integer ⟨.int64, by decide⟩,
        true, none⟩ := by decide
  have hi : foldIn target closedScope (.binary .shl sum count true) =
      .value (.ofValue (.ofInt _ 512) (some .longInt)) := by decide
  have heq := h _ _ _ _ hl hr hi hb cxxInt64 cxxInt64 (.ofInt _ 2) (.ofInt _ 40) (by decide)
    (by decide)
  exact absurd heq (by decide)

end
end Tp2cc
