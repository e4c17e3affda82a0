import Tp2cc.Analysis.ConstFoldLaw

set_option autoImplicit false

namespace Tp2cc
open Machine Rt

inductive StepType where
  | ordinal (t : OrdinalType)
  | wideChar
  /-- `ByteBool`, `WordBool`, `LongBool` and `QWordBool`. -/
  | sizedBoolean (p : IntegerPrimitive) (isBool : p.family = .bool)
  | wideCharSubrange (low high : Int) (ordered : low ≤ high) (contained : 0 ≤ low ∧ high ≤ 65535)
  /-- A subrange of integers whose bounds stay symbolic until C++ evaluates them. -/
  | symbolicSubrange (lowType highType : IntegerPrimitive) (low high : Int)

namespace StepType
variable (target : TargetInfo)

def storagePrimitive : StepType → Option IntegerPrimitive
  | .ordinal t => t.storagePrimitive
  | .wideChar => some ⟨.wideChar, by decide⟩
  | .sizedBoolean p _ => some p
  | .wideCharSubrange low high _ _ => ordinalIntegerPrimitiveForDomain low high
  | .symbolicSubrange lowType highType _ _ =>
    integerArithmeticPrimitive target .add lowType highType

def domain : StepType → Option (Int × Int)
  | .ordinal (.integer p _ _) => some (integerDomain target p)
  | .ordinal t => some (t.low target, t.high target)
  | .wideChar => some (0, 65535)
  | .sizedBoolean p _ => some (integerDomain target p)
  | .wideCharSubrange low high _ _ => some (low, high)
  | .symbolicSubrange _ _ _ _ => none

def low : StepType → Int
  | .ordinal t => t.low target
  | .wideChar => 0
  | .sizedBoolean _ _ => 0
  | .wideCharSubrange low _ _ _ => low
  | .symbolicSubrange _ _ low _ => low

def high : StepType → Int
  | .ordinal t => t.high target
  | .wideChar => 65535
  | .sizedBoolean _ _ => 1
  | .wideCharSubrange _ high _ _ => high
  | .symbolicSubrange _ _ _ high => high

/-- `type_to_cxx`; a subrange of wide characters is stored as its base. -/
def cxxType (storage : IntegerPrimitive) : StepType → IntType
  | .ordinal t => t.cxxType target storage
  | .wideCharSubrange _ _ _ _ => IntegerPrimitive.intType ⟨.wideChar, by decide⟩ target
  | _ => storage.intType target

end StepType

section
variable (target : TargetInfo)

def bindStep (kind : StepIntrinsic) (qCheck rCheck : Bool) (t : StepType) :
    Option BoundOrdinalStep := do
  let storageCarrier ← t.storagePrimitive target
  let operationCarrier ←
    if qCheck ∨ rCheck then do
      let deltaCarrier ← ordinalIntegerPrimitive .signed 8
      integerArithmeticPrimitive target (if kind.subtracts then .sub else .add) storageCarrier
        deltaCarrier
    else some storageCarrier
  return ⟨kind, operationCarrier, qCheck, rCheck⟩

section
variable (bound : BoundOrdinalStep)

def StepLeaves (domain : Int × Int) (bits : Word cxxUInt64) : Prop :=
  if bound.carrier.intKind = .signed then
    (signExtend bits (bound.carrier.bits target)).val < domain.1 ∨
      (signExtend bits (bound.carrier.bits target)).val > domain.2
  else domain.1 < 0 ∨ bits.val > domain.2

instance (domain : Int × Int) (bits : Word cxxUInt64) :
    Decidable (StepLeaves target bound domain bits) := by
  unfold StepLeaves; infer_instance

/-- `eval_bound_ordinal_step` on the folded operand of a type with this storage and domain. -/
def evalOrdinalStep (storage : IntegerPrimitive) (domain : Option (Int × Int))
    (source : ConstIntExprInfo) : Folded :=
  let bits := maskBits (convertConstIntValue target source bound.carrier).bits
    (bound.carrier.bits target)
  let stepped := steppedBits target bound bits
  if StepOverflows target bound bits then .failed true
  else if bound.checkRange = true ∧
      ¬ domain.any (fun d => decide (¬ StepLeaves target bound d stepped)) = true then
    .failed false
  else
    let result := maskBits stepped (storage.bits target)
    .value ⟨if storage.intKind = .signed then signExtend result (storage.bits target)
      else result.cast _, result, some storage.kind⟩

end

theorem bindStep_ordinal (kind : StepIntrinsic) (q r : Bool) (t : OrdinalType) :
    bindStep target kind q r (.ordinal t) = bindOrdinalStep target kind q r t none := by
  unfold bindStep bindOrdinalStep
  simp only [Option.any_none, Bool.false_eq_true, if_false, StepType.storagePrimitive]
  rfl

theorem evalOrdinalStep_integer (bound : BoundOrdinalStep) (p : IntegerPrimitive)
    (source : ConstIntExprInfo) :
    evalOrdinalStep target bound p (some (integerDomain target p)) source =
      evalBoundOrdinalStep target bound p source := by
  have h (bits : Word cxxUInt64) : StepOutOfRange target bound p bits ↔
      bound.checkRange = true ∧
        ¬ (some (integerDomain target p)).any
          (fun d => decide (¬ StepLeaves target bound d bits)) = true := by
    simp only [StepOutOfRange, Option.any_some, decide_eq_true_eq, not_not]
    rfl
  simp only [evalOrdinalStep, evalBoundOrdinalStep, h]

def ConstIntExprInfo.BitsOf (info : ConstIntExprInfo) (width : Nat) : Prop :=
  (0 ≤ info.denote → info.bits.val = info.denote) ∧
    (info.denote < 0 → info.bits.val = info.denote+2^64 ∨ info.bits.val = info.denote+2^width)

/-- A folded argument of a step: its constant, and the word the emitted argument evaluates to.
A cast or a step before it may have cut the bits to the storage. -/
structure StepArgument (target : TargetInfo) where
  type : StepType
  storage : IntegerPrimitive
  selected : type.storagePrimitive target = some storage
  info : ConstIntExprInfo
  word : Word (type.cxxType target storage)
  same : word.val = info.denote
  bits : info.BitsOf (storage.bits target)

section
variable (a : StepArgument target)

def StepArgument.fold (bound : BoundOrdinalStep) : Folded :=
  evalOrdinalStep target bound a.storage (a.type.domain target) a.info

def StepArgument.call (bound : BoundOrdinalStep) :
    Except RuntimeError (Word (a.type.cxxType target a.storage)) :=
  boundOrdinalStepToCxx target bound a.word 1 (a.type.low target) (a.type.high target)

/-- A folded step is what the emitted call returns, and where the call raises nothing is
folded. -/
structure StepFoldsAsEmitted (bound : BoundOrdinalStep) : Prop where
  value : ∀ info, a.fold target bound = .value info →
    ∃ w, a.call target bound = .ok w ∧ w.val = info.denote
  refused : ∀ e, a.call target bound = .error e → ∃ o, a.fold target bound = .failed o

/-- What the type and the argument have to meet for a step to fold as it is emitted. -/
structure StepAgrees (bound : BoundOrdinalStep) : Prop where
  /-- Not the predecessor of the storage's minimum, with the bits cut, in a wider carrier. -/
  minimum : bound.checkRange = true → (a.type.domain target).isSome = true →
    bound.kind.subtracts = true → a.storage.bits target < bound.carrier.bits target →
    a.info.denote = (a.storage.intType target).lo →
    a.info.bits.val = a.info.denote+2^a.storage.bits target →
    a.type.high target < (a.storage.intType target).hi
  /-- In an unsigned carrier only the high bound is tested. -/
  unsigned : bound.checkRange = true → bound.carrier.intKind = .unsigned →
    (a.type.domain target).isSome = true →
    a.type.low target ≤ bound.kind.apply a.info.denote 1 % 2^64
  /-- The emitted bounds of a sized Boolean are false and true. -/
  sized : bound.checkRange = true → ∀ p h, a.type = .sizedBoolean p h →
    bound.kind.apply a.info.denote 1 ≤ 1 ∨
      (integerDomain target p).2 < bound.kind.apply a.info.denote 1
  /-- Without range checks a Boolean is folded as a byte. -/
  boolean : bound.checkRange = false → ∀ t, a.type = .ordinal t → t.isBoolean = true →
    0 ≤ bound.kind.apply a.info.denote 1 ∧ bound.kind.apply a.info.denote 1 ≤ 1
  /-- A wide character is emitted in more bits than its subrange is folded in. -/
  wide : bound.checkRange = false → bound.checkOverflow = true → ∀ low high h₁ h₂,
    a.type = .wideCharSubrange low high h₁ h₂ →
    bound.kind.apply a.info.denote 1 % 2^16 ≤ (a.storage.intType target).hi

end

/-! Both sides in the carrier. -/
section
variable {target : TargetInfo} (bound : BoundOrdinalStep)

def PastCarrier (target : TargetInfo) (v : Int) : Prop :=
  bound.checkOverflow = true ∧ bound.carrier.intKind = .signed ∧
    ¬ (bound.carrier.intType target).Holds
      (bound.kind.apply ((bound.carrier.intType target).reduce v) 1)

def PassesDomain (domain : Int × Int) (y : Int) : Prop :=
  if bound.carrier.intKind = .signed then domain.1 ≤ y ∧ y ≤ domain.2
  else 0 ≤ domain.1 ∧ y ≤ domain.2

def FoldTaken (target : TargetInfo) (domain : Option (Int × Int)) (b : Int) : Prop :=
  ¬ PastCarrier bound target b ∧ (bound.checkRange = true →
    ∃ d, domain = some d ∧ PassesDomain bound d (steppedIn target bound b))

def CallTaken (target : TargetInfo) (low high v : Int) : Prop :=
  ¬ PastCarrier bound target v ∧ (bound.checkRange = true →
    (bound.carrier.intType target).reduce low ≤ steppedIn target bound v ∧
      steppedIn target bound v ≤ (bound.carrier.intType target).reduce high)

variable {bound}

theorem stepLeaves_iff (d : Int × Int) (v : Int) :
    StepLeaves target bound d
        (.ofInt _ (lowBits (bound.kind.apply v 1) (bound.carrier.bits target))) ↔
      ¬ PassesDomain bound d (steppedIn target bound v) := by
  unfold StepLeaves PassesDomain
  cases bound.carrier.intKind_cases with
  | inl hC =>
    rw [if_pos hC, if_pos hC, signExtend_val hC, not_and_or, not_le, not_le]
    rfl
  | inr hC =>
    have hne : bound.carrier.intKind ≠ .signed := by simp [hC]
    rw [if_neg hne, if_neg hne, lowBits_val, ← reduce_unsigned hC, not_and_or, not_le, not_le]
    rfl

theorem stepResult_eq {storage : IntegerPrimitive}
    (hw : storage.bits target ≤ bound.carrier.bits target) (v : Int) :
    let result := maskBits (.ofInt _ (lowBits (bound.kind.apply v 1) (bound.carrier.bits target)))
      (storage.bits target)
    (⟨if storage.intKind = .signed then signExtend result (storage.bits target)
      else result.cast _, result, some storage.kind⟩ : ConstIntExprInfo) =
      maskedInfo target storage (bound.kind.apply v 1) := by
  intro result
  have hresult : result = .ofInt _ (lowBits (bound.kind.apply v 1) (storage.bits target)) := by
    simp only [result, maskBits_ofInt (storage.bits_le target), lowBits_lowBits hw]
  rw [hresult, maskedInfo]
  congr 1
  refine Word.ext ?_
  cases storage.intKind_cases with
  | inl hS => rw [if_pos hS, signExtend_val hS, reduce_widest, reduce_int64_of_signed hS]
  | inr hS =>
    rw [if_neg (by simp [hS]), reduce_unsigned hS, Word.cast_val, lowBits_val, Word.ofInt_val]

theorem evalOrdinalStep_eq {storage : IntegerPrimitive} {domain : Option (Int × Int)}
    (hw : storage.bits target ≤ bound.carrier.bits target) (source : ConstIntExprInfo) :
    (FoldTaken bound target domain source.bits.val →
      evalOrdinalStep target bound storage domain source =
        .value (maskedInfo target storage (bound.kind.apply source.bits.val 1))) ∧
    (¬ FoldTaken bound target domain source.bits.val →
      ∃ o, evalOrdinalStep target bound storage domain source = .failed o) := by
  have hbits : maskBits (convertConstIntValue target source bound.carrier).bits
      (bound.carrier.bits target) =
        .ofInt _ (lowBits source.bits.val (bound.carrier.bits target)) := by
    have hc : (convertConstIntValue target source bound.carrier).bits =
        .ofInt _ (lowBits source.bits.val (bound.carrier.bits target)) := by
      simp only [convertConstIntValue]
      split_ifs <;> rfl
    rw [hc, maskBits_ofInt (bound.carrier.bits_le target), lowBits_lowBits (le_refl _)]
  have hstep := @steppedBits_eq target bound source.bits.val
  have hpast := @stepOverflows_iff target bound source.bits.val
  have hdomain : domain.any (fun d => decide (¬ StepLeaves target bound d
      (.ofInt _ (lowBits (bound.kind.apply source.bits.val 1) (bound.carrier.bits target))))) =
        true ↔
      ∃ d, domain = some d ∧ PassesDomain bound d (steppedIn target bound source.bits.val) := by
    cases domain with
    | none => simp
    | some d =>
      rw [Option.any_some, decide_eq_true_eq, stepLeaves_iff, not_not]
      simp
  have hresult := @stepResult_eq target bound storage hw source.bits.val
  simp only [evalOrdinalStep, hbits, hstep]
  constructor
  · rintro ⟨h₁, h₂⟩
    rw [if_neg (fun h => h₁ (hpast.mp h)), if_neg (fun h => h.2 (hdomain.mpr (h₂ h.1)))]
    exact congrArg Folded.value hresult
  · intro h
    by_cases h₁ : PastCarrier bound target source.bits.val
    · exact ⟨true, if_pos (hpast.mpr h₁)⟩
    · rw [if_neg (fun h => h₁ (hpast.mp h))]
      refine ⟨false, if_pos ?_⟩
      by_contra hn
      refine h ⟨h₁, fun hr => ?_⟩
      by_contra hd
      exact hn ⟨hr, fun ht => hd (hdomain.mp ht)⟩

theorem call_eq {R : IntType} (word : Word R) (low high : Int) :
    (CallTaken bound target low high word.val →
      ∃ w, boundOrdinalStepToCxx target bound word 1 low high = .ok w ∧
        w.val = R.reduce (steppedIn target bound word.val)) ∧
    (¬ CallTaken bound target low high word.val →
      ∃ e, boundOrdinalStepToCxx target bound word 1 low high = .error e) := by
  have hone : (bound.carrier.intType target).reduce 1 = 1 := by
    refine IntType.reduce_of_holds ?_
    have hb := bound.carrier.bits_cases target
    cases bound.carrier.intKind_cases with
    | inl h =>
      rw [IntegerPrimitive.holds_of_signed h]
      rcases hb with hb | hb | hb | hb <;> rw [hb] <;> omega
    | inr h =>
      rw [IntegerPrimitive.holds_of_unsigned h]
      rcases hb with hb | hb | hb | hb <;> rw [hb] <;> omega
  have heq := @boundOrdinalStepToCxx_eq target R bound word 1 low high
  simp only [hone, IntegerPrimitive.intType_signed, IntegerPrimitive.signed_iff] at heq
  constructor
  · rintro ⟨h₁, h₂⟩
    have hrange : ¬ (bound.checkRange = true ∧
        (steppedIn target bound word.val < (bound.carrier.intType target).reduce low ∨
          (bound.carrier.intType target).reduce high < steppedIn target bound word.val)) := by
      rintro ⟨hr, h⟩
      have := h₂ hr
      omega
    refine ⟨tp2ccOrdinalFromCarrier R _, (heq.trans (if_neg h₁)).trans (if_neg hrange), ?_⟩
    rw [tp2ccOrdinalFromCarrier_val]
    rfl
  · intro h
    by_cases h₁ : PastCarrier bound target word.val
    · exact ⟨.intOverflow, heq.trans (if_pos h₁)⟩
    · refine ⟨.rangeError, (heq.trans (if_neg h₁)).trans (if_pos ?_)⟩
      by_contra hn
      refine h ⟨h₁, fun hr => ?_⟩
      have hrange : ¬ (steppedIn target bound word.val < (bound.carrier.intType target).reduce low ∨
          (bound.carrier.intType target).reduce high < steppedIn target bound word.val) :=
        fun h => hn ⟨hr, h⟩
      omega

def FoldMeetsCall (bound : BoundOrdinalStep) (a : StepArgument target) : Prop :=
  FoldTaken bound target (a.type.domain target) a.info.bits.val →
    CallTaken bound target (a.type.low target) (a.type.high target) a.info.denote ∧
      (a.type.cxxType target a.storage).reduce (steppedIn target bound a.info.denote) =
        (a.storage.intType target).reduce (bound.kind.apply a.info.bits.val 1)

theorem stepFoldsAsEmitted_iff_meets (a : StepArgument target)
    (hw : a.storage.bits target ≤ bound.carrier.bits target) :
    StepFoldsAsEmitted target a bound ↔ FoldMeetsCall bound a := by
  have hfold := @evalOrdinalStep_eq target bound a.storage (a.type.domain target) hw a.info
  have hcall := @call_eq target bound _ a.word (a.type.low target) (a.type.high target)
  rw [a.same] at hcall
  constructor
  · intro h htaken
    obtain ⟨w, hw, hv⟩ := h.value _ (hfold.1 htaken)
    by_cases hc : CallTaken bound target (a.type.low target) (a.type.high target) a.info.denote
    · obtain ⟨w', hw', hv'⟩ := hcall.1 hc
      have hsame : w = w' := by
        rw [StepArgument.call, hw'] at hw
        exact (Except.ok.inj hw).symm
      rw [← hsame, hv, maskedInfo_denote] at hv'
      exact ⟨hc, hv'.symm⟩
    · obtain ⟨e, he⟩ := hcall.2 hc
      rw [StepArgument.call, he] at hw
      contradiction
  · intro h
    constructor
    · intro info hi
      by_cases htaken : FoldTaken bound target (a.type.domain target) a.info.bits.val
      · obtain ⟨hc, hr⟩ := h htaken
        obtain ⟨w, hw, hv⟩ := hcall.1 hc
        rw [StepArgument.fold, hfold.1 htaken] at hi
        cases hi
        exact ⟨w, hw, by rw [hv, hr, maskedInfo_denote]⟩
      · obtain ⟨o, ho⟩ := hfold.2 htaken
        rw [StepArgument.fold, ho] at hi
        contradiction
    · intro e he
      refine hfold.2 fun htaken => ?_
      obtain ⟨w, hw, -⟩ := hcall.1 (h htaken).1
      rw [StepArgument.call, hw] at he
      contradiction

end

/-! The bits of what expressions fold to, as arguments of a step have them. -/

theorem ofValue_bitsOf (value : Word cxxInt64) (type : Option PrimitiveKind) :
    (ConstIntExprInfo.ofValue value type).BitsOf 64 := by
  have hv := int64_bounds value
  have hbits : (ConstIntExprInfo.ofValue value type).bits.val = cxxUInt64.reduce value.val := rfl
  cases hu : (ConstIntExprInfo.ofValue value type).isUnsigned with
  | true =>
    have hd : (ConstIntExprInfo.ofValue value type).denote = cxxUInt64.reduce value.val := by
      simp [ConstIntExprInfo.denote, hu, hbits]
    refine ⟨fun _ => hbits.trans hd.symm, fun hn => ?_⟩
    have := (cxxUInt64.reduce_holds value.val).1
    rw [hd] at hn
    exact absurd hn (not_lt.mpr this)
  | false =>
    have hd : (ConstIntExprInfo.ofValue value type).denote = value.val := by
      simp only [ConstIntExprInfo.denote, hu, Bool.false_eq_true, if_false]
      rfl
    rw [ConstIntExprInfo.BitsOf, hbits, hd]
    refine ⟨fun h0 => reduce_uint64_of_nonneg h0 (by omega), fun hn => .inl ?_⟩
    exact reduce_uint64_of_neg (by omega) hn

theorem foldUnsigned_bitsOf (bits : Word cxxUInt64) : (foldUnsigned bits).BitsOf 64 := by
  have hd : (foldUnsigned bits).denote = bits.val := rfl
  rw [ConstIntExprInfo.BitsOf, hd]
  refine ⟨fun _ => rfl, fun hn => ?_⟩
  have := (uint64_bounds bits).1
  omega

theorem maskedInfo_bitsOf (p : IntegerPrimitive) (v : Int) :
    (maskedInfo target p v).BitsOf (p.bits target) := by
  have hb := lowBits_bounds v (p.bits target)
  have hbits : (maskedInfo target p v).bits.val = lowBits v (p.bits target) := lowBits_val v
  have h2 := (p.intType target).two_pow_split
  rw [IntegerPrimitive.intType_bits] at h2
  rw [ConstIntExprInfo.BitsOf, hbits, maskedInfo_denote]
  cases p.intKind_cases with
  | inl hs =>
    rw [reduce_signed hs]
    split_ifs with hlow <;> omega
  | inr hu =>
    rw [reduce_unsigned hu]
    omega

theorem makeResult_bitsOf {negative : Bool} {result : Word cxxUInt64} {info : ConstIntExprInfo}
    (h : makeResult negative result = .value info) : info.BitsOf 64 := by
  unfold makeResult at h
  split_ifs at h <;> cases h
  · exact ofValue_bitsOf _ _
  · exact ofValue_bitsOf _ _
  · exact ofValue_bitsOf _ _
  · exact foldUnsigned_bitsOf _

theorem addSignedMagnitudes_bitsOf {ln rn : Bool} {l r : Word cxxUInt64} {info : ConstIntExprInfo}
    (h : addSignedMagnitudes ln l rn r = .value info) : info.BitsOf 64 := by
  unfold addSignedMagnitudes at h
  split_ifs at h
  · exact makeResult_bitsOf h
  · exact makeResult_bitsOf h
  · exact makeResult_bitsOf h

theorem foldBinary_bitsOf {op : ConstBinOp} {kind : BoundBinaryKind} {l r info : ConstIntExprInfo}
    (h : foldBinary target op kind l r = .value info) : info.BitsOf 64 := by
  cases kind <;> simp only [foldBinary] at h
  case integerAdd => exact addSignedMagnitudes_bitsOf h
  case integerSub => exact addSignedMagnitudes_bitsOf h
  case integerMul =>
    split_ifs at h
    exact makeResult_bitsOf h
  case integerDiv =>
    split_ifs at h
    exact makeResult_bitsOf h
  case integerMod =>
    split_ifs at h
    exact makeResult_bitsOf h
  case integerBitwise =>
    cases h
    exact ofValue_bitsOf _ _
  case integerCompare => contradiction
  case integerShift =>
    cases hp : l.primitive with
    | none => rw [hp] at h; contradiction
    | some p =>
      cases hc : shiftCarrierPrimitive target p with
      | none =>
        simp only [hp, hc, Option.bind_eq_bind, Option.bind_some, Option.bind_none] at h
        contradiction
      | some c =>
        simp only [hp, hc, Option.bind_eq_bind, Option.bind_some] at h
        cases h
        exact ofValue_bitsOf _ _

theorem evalConstIntCast_bits (p : IntegerPrimitive) (info : ConstIntExprInfo) :
    evalConstIntCast target p info = maskedInfo target p info.bits.val := by
  let c : Constant := ⟨info.bits.val, ⟨.qWord, PrimitiveKind.qWord_integer⟩, by decide,
    info.bits.mem⟩
  have hbits : c.info.bits = info.bits := Word.cast_self info.bits
  have hconv : convertConstIntValue target info p = convertConstIntValue target c.info p := by
    simp only [convertConstIntValue, hbits]
  rw [evalConstIntCast, hconv]
  exact evalConstIntCast_eq c

theorem maskedInfo_primitive (p : IntegerPrimitive) (v : Int) :
    (maskedInfo target p v).primitive = some p := by
  simp [ConstIntExprInfo.primitive, maskedInfo, integerPrimitiveOfKind, p.isInteger]

theorem bindConstStep_bits_le {s q r : Bool} {type : Option IntegerPrimitive}
    {bound : BoundOrdinalStep} {storage : IntegerPrimitive}
    (h : bindConstStep target s q r type = some (bound, storage)) :
    storage.bits target ≤ bound.carrier.bits target := by
  cases type with
  | none => contradiction
  | some p =>
    by_cases hplain : p.Plain
    · obtain ⟨bound', hb, -, hle⟩ := @bindConstStep_bound target s q r p hplain
      rw [hb] at h
      cases h
      exact hle
    · simp [bindConstStep, hplain] at h

theorem evalStep_masked {bound : BoundOrdinalStep} {storage : IntegerPrimitive}
    {source info : ConstIntExprInfo} (hw : storage.bits target ≤ bound.carrier.bits target)
    (h : evalBoundOrdinalStep target bound storage source = .value info) :
    info = maskedInfo target storage (bound.kind.apply source.bits.val 1) := by
  rw [← evalOrdinalStep_integer] at h
  obtain ⟨htaken, hrefused⟩ := @evalOrdinalStep_eq target bound storage
    (some (integerDomain target storage)) hw source
  by_cases hf : FoldTaken bound target (some (integerDomain target storage)) source.bits.val
  · rw [htaken hf] at h
    cases h
    rfl
  · obtain ⟨o, ho⟩ := hrefused hf
    rw [ho] at h
    contradiction

/-- What the scope folds an identifier to is a folded constant, of its type where it is cut. -/
def IdentEnv.Recorded {ι : Type} (env : IdentEnv ι) : Prop :=
  ∀ name info, env.fold name = .value info → info.BitsOf 64 ∨
    ∃ p, env.type name = some p ∧ info.primitive = some p ∧ info.BitsOf (p.bits target)

theorem evalConstIntExpr_bitsOf {ι : Type} {env : IdentEnv ι} (henv : env.Recorded target)
    (e : ConstExpr ι) {info : ConstIntExprInfo}
    (h : evalConstIntExpr target env e = .value info) :
    info.BitsOf 64 ∨ ∃ p, deduceType target env e = some p ∧ info.primitive = some p ∧
      info.BitsOf (p.bits target) := by
  induction e generalizing info with
  | lit v =>
    rw [evalConstIntExpr] at h
    cases h
    unfold foldLiteral
    split_ifs
    · exact .inl (foldUnsigned_bitsOf _)
    · exact .inl (ofValue_bitsOf _ _)
  | ident name =>
    rw [evalConstIntExpr] at h
    rw [deduceType]
    exact henv name info h
  | unary op e ih =>
    rw [evalConstIntExpr] at h
    cases hf : evalConstIntExpr target env e with
    | failed o => rw [hf] at h; contradiction
    | value a =>
      rw [hf] at h
      cases op with
      | plus =>
        cases h
        rcases ih hf with hfull | ⟨p, -, hprim, hcut⟩
        · exact .inl hfull
        · refine .inr ⟨p, ?_, hprim, hcut⟩
          rw [deduceType, hf]
          simp only [Folded.bind, foldUnary, Folded.value?, Option.bind_some, hprim]
          rfl
      | not => contradiction
      | neg =>
        simp only [Folded.bind, foldUnary] at h
        cases hs : checkedSubInt64 (.ofInt _ 0) a.value with
        | none => rw [hs] at h; contradiction
        | some value =>
          rw [hs] at h
          cases h
          exact .inl (ofValue_bitsOf _ _)
  | binary op l r q ihl ihr =>
    rw [evalConstIntExpr] at h
    split at h
    · contradiction
    · unfold Folded.bind₂ at h
      split at h
      · exact .inl (foldBinary_bitsOf target h)
      · contradiction
  | step s e q r ih =>
    rw [evalConstIntExpr] at h
    split at h
    · contradiction
    next bound storage hb =>
      have hdeduced : deduceType target env (.step s e q r) = some storage := by
        rw [deduceType, hb]
        rfl
      cases hf : evalConstIntExpr target env e with
      | failed o => rw [hf] at h; contradiction
      | value a =>
        rw [hf] at h
        rw [evalStep_masked target (bindConstStep_bits_le target hb) h]
        refine .inr ⟨storage, hdeduced, ?_, maskedInfo_bitsOf target storage _⟩
        exact maskedInfo_primitive target storage _
  | cast p plain e ih =>
    rw [evalConstIntExpr] at h
    cases hf : evalConstIntExpr target env e with
    | failed o => rw [hf] at h; contradiction
    | value a =>
      rw [hf] at h
      cases h
      rw [evalConstIntCast_bits]
      refine .inr ⟨p, by rw [deduceType], ?_, ?_⟩
      · exact maskedInfo_primitive target p _
      · exact maskedInfo_bitsOf target p _

theorem foldClosed_bitsOf (e : ConstExpr Empty) {info : ConstIntExprInfo}
    (h : foldClosed target e = .value info) :
    info.BitsOf 64 ∨ ∃ p, deduceType target closedEnv e = some p ∧ info.primitive = some p ∧
      info.BitsOf (p.bits target) :=
  evalConstIntExpr_bitsOf target (fun name => name.elim) e h

end
end Tp2cc
