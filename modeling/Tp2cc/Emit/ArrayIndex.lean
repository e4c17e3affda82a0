import Tp2cc.Machine.CxxPrefix
import Tp2cc.Machine.RowMajor
import Tp2cc.Primitive

set_option autoImplicit false

namespace Tp2cc
open Machine Machine.Cxx

/-- A dimension of a fixed array: the C++ expression for its low bound, and its length. -/
structure ArrayDim where
  low : Value
  count : Nat
  count_pos : 0 < count

/-- The C++ types of storage, with what `sizeof` says of those without parts. -/
inductive CxxStorage where
  | named (name : String) (size : Nat) (size_pos : 0 < size)
  | shortString (capacity : Nat)
  | array (element : CxxStorage) (low : Int) (count : Nat)
  deriving DecidableEq

inductive StorageType where
  | scalar (name : String) (size : Nat) (size_pos : 0 < size)
  | shortString (capacity : Nat)
  | array (dims : List ArrayDim) (element : StorageType)

def CxxStorage.size : CxxStorage → Nat
  | .named _ size _ => size
  | .shortString capacity => capacity+1
  | .array element _ count => count * element.size

def nestArrays (dims : List ArrayDim) (element : CxxStorage) : CxxStorage :=
  dims.foldr (fun dim ty => .array ty dim.low.word.val dim.count) element

def StorageType.cxx : StorageType → CxxStorage
  | .scalar name size size_pos => .named name size size_pos
  | .shortString capacity => .shortString capacity
  | .array dims element => nestArrays dims element.cxx

def pCharStorage : StorageType := .scalar "::rt::p_char" 1 Nat.one_pos

def StorageType.indexed : StorageType → Option StorageType
  | .scalar _ _ _ => none
  | .shortString _ => some pCharStorage
  | .array _ element => some element

structure ByteDesignator where
  address : Int
  cxx : CxxStorage
  deriving DecidableEq

/-- Array storage that is only there as bytes. `untyped` says that it is an untyped parameter
under a cast to the type. -/
structure ByteStorage where
  target : TargetInfo
  address : Int
  dims : List ArrayDim
  element : StorageType
  untyped : Bool
  fits : (nestArrays dims element.cxx).size < 2^(target.pointerBits-1)

/-- The storage under brackets with index expressions. -/
inductive StorageExpr where
  | storage
  | index (base : StorageExpr) (indices : List Value)

theorem TargetInfo.bits_pos (target : TargetInfo) : 0 < target.pointerBits := by
  cases target.valid with
  | inl h => omega
  | inr h => omega

def TargetInfo.sizeT (target : TargetInfo) : IntType := ⟨false, target.pointerBits, target.bits_pos⟩

def TargetInfo.ptrdiffT (target : TargetInfo) : IntType :=
  ⟨true, target.pointerBits, target.bits_pos⟩

/-- The offset expression `((index) - (low)) * sizeof(...)`; `none` where C++ leaves it undefined. -/
def indexOffset (target : TargetInfo) (index low : Value) (size : Nat) : Option Int := do
  let difference ← index.binary (· - ·) low
  let offset ← difference.binary (· * ·) ⟨target.sizeT, .ofInt target.sizeT size⟩
  return (offset.word.cast target.ptrdiffT).val

/-- The loop over the indices of a bracket. `dims` are the dimensions still inner. -/
def composeIndices (target : TargetInfo) (element : CxxStorage) :
    List Value → List ArrayDim → ByteDesignator → Option ByteDesignator
  | [], _, base => some base
  | _ :: _, [], _ => none
  | index :: indices, dim :: dims, base => do
    let elemCxx := nestArrays dims element
    let offset ← indexOffset target index dim.low elemCxx.size
    composeIndices target element indices dims ⟨base.address+offset, elemCxx⟩

def rawAddressIndexDesignator (target : TargetInfo) (indices : List Value) (base : ByteDesignator)
    (baseType : StorageType) : Option ByteDesignator :=
  if indices = [] then none
  else
    match baseType, indices with
    -- Index 0 is the length byte and index 1 the first character behind it.
    | .shortString _, [index] => some ⟨base.address+(index.word.cast target.ptrdiffT).val, pCharStorage.cxx⟩
    | .shortString _, _ => none
    | .scalar _ _ _, _ => none
    | .array dims element, _ =>
      if dims.length < indices.length then none
      else composeIndices target element.cxx indices dims base

namespace ByteStorage
variable (s : ByteStorage)

def type : StorageType := .array s.dims s.element

/-- `deduce_type`: an index expression has the element type, however many dimensions it selects. -/
def deduceType : StorageExpr → Option StorageType
  | .storage => some s.type
  | .index base _ => (deduceType base).bind StorageType.indexed

/-- The element of an untyped parameter under a cast, if one index selects it. -/
def untypedStorageIndexView : StorageExpr → Option (Option ByteDesignator)
  | .index .storage [index] =>
    match s.untyped, s.dims with
    | true, [dim] =>
      some ((indexOffset s.target index dim.low s.element.cxx.size).map fun offset =>
        ⟨s.address+offset, s.element.cxx⟩)
    | _, _ => none
  | _ => none

def storageDesignator : StorageExpr → Option ByteDesignator
  | .storage => some ⟨s.address, s.type.cxx⟩
  | .index base indices =>
    match s.untypedStorageIndexView (.index base indices) with
    | some view => view
    | none => do
      let baseStorage ← storageDesignator base
      let baseType ← s.deduceType base
      rawAddressIndexDesignator s.target indices baseStorage baseType

def chainExpr (brackets : List (List Value)) : StorageExpr := brackets.foldl .index .storage

end ByteStorage

def StorageType.levels : StorageType → List ArrayDim
  | .scalar _ _ _ => []
  | .shortString _ => []
  | .array dims element => dims ++ element.levels

def StorageType.leaf : StorageType → CxxStorage
  | .scalar name size size_pos => .named name size size_pos
  | .shortString capacity => .shortString capacity
  | .array _ element => element.leaf

def InBounds : List ArrayDim → List Value → Prop
  | _, [] => True
  | [], _ :: _ => False
  | dim :: dims, index :: indices =>
    (dim.low.word.val ≤ index.word.val ∧ index.word.val < dim.low.word.val + dim.count) ∧
      InBounds dims indices

instance decidableInBounds :
    (dims : List ArrayDim) → (indices : List Value) → Decidable (InBounds dims indices)
  | [], [] => .isTrue trivial
  | _ :: _, [] => .isTrue trivial
  | [], _ :: _ => .isFalse id
  | _ :: dims, _ :: indices =>
    have := decidableInBounds dims indices
    inferInstanceAs (Decidable (_ ∧ _))

def positions : List ArrayDim → List Value → List Nat
  | dim :: dims, index :: indices =>
    (index.word.val - dim.low.word.val).toNat :: positions dims indices
  | _, _ => []

def rowMajorDesignator (levels : List ArrayDim) (leaf : CxxStorage) (address : Int)
    (indices : List Value) : ByteDesignator where
  address := address + rowMajor leaf.size (levels.map (·.count)) (positions levels indices)
  cxx := nestArrays (levels.drop indices.length) leaf

/-- Each bracket but the last selects all dimensions of the array type it is applied to, and the
last no more than these. -/
def Aligned : StorageType → List (List Value) → Prop
  | _, [] => True
  | .array dims _, [bracket] => bracket.length ≤ dims.length
  | .array dims element, bracket :: brackets =>
    bracket.length = dims.length ∧ Aligned element brackets
  | _, _ :: _ => False

def DistancesFit : List ArrayDim → List Value → Prop
  | dim :: dims, index :: indices =>
    (index.type.usual dim.low.type).Holds (index.word.val - dim.low.word.val) ∧
      DistancesFit dims indices
  | _, _ => True

/-- Brackets on an array, with indices within their bounds. -/
structure IndexChain (s : ByteStorage) where
  brackets : List (List Value)
  nonempty : ∀ bracket ∈ brackets, bracket ≠ []
  inBounds : InBounds s.type.levels brackets.flatten

namespace IndexChain
variable {s : ByteStorage} (c : IndexChain s)

def designator : Option ByteDesignator := s.storageDesignator (ByteStorage.chainExpr c.brackets)

def selected : ByteDesignator :=
  rowMajorDesignator s.type.levels s.type.leaf s.address c.brackets.flatten

def Full : Prop := c.brackets.flatten.length = s.type.levels.length

end IndexChain

def ByteDesignator.Disjoint (a b : ByteDesignator) : Prop :=
  a.address + a.cxx.size ≤ b.address ∨ b.address + b.cxx.size ≤ a.address

section
variable {dims dims' : List ArrayDim} {leaf : CxxStorage}

def CxxStorage.depth : CxxStorage → Nat
  | .named _ _ _ => 0
  | .shortString _ => 1
  | .array element _ _ => element.depth+1

@[simp] theorem nestArrays_nil : nestArrays [] leaf = leaf := rfl

@[simp] theorem nestArrays_cons (dim : ArrayDim) :
    nestArrays (dim :: dims) leaf = .array (nestArrays dims leaf) dim.low.word.val dim.count := rfl

theorem nestArrays_append :
    nestArrays (dims ++ dims') leaf = nestArrays dims (nestArrays dims' leaf) := by
  simp [nestArrays]

theorem nestArrays_size : (nestArrays dims leaf).size = (dims.map (·.count)).prod * leaf.size := by
  induction dims with
  | nil => simp
  | cons dim dims ih => simp [CxxStorage.size, ih, Nat.mul_assoc]

theorem nestArrays_depth : (nestArrays dims leaf).depth = dims.length + leaf.depth := by
  induction dims with
  | nil => simp
  | cons dim dims ih =>
    simp only [nestArrays_cons, CxxStorage.depth, ih, List.length_cons]
    omega

theorem size_le_nestArrays : leaf.size ≤ (nestArrays dims leaf).size := by
  induction dims with
  | nil => exact Nat.le_refl _
  | cons dim dims ih => exact Nat.le_trans ih (Nat.le_mul_of_pos_left _ dim.count_pos)

theorem nestArrays_size_pos (h : 0 < leaf.size) : 0 < (nestArrays dims leaf).size := by
  induction dims with
  | nil => exact h
  | cons dim dims ih => exact Nat.mul_pos dim.count_pos ih

theorem StorageType.leaf_size_pos (t : StorageType) : 0 < t.leaf.size := by
  cases t with
  | scalar name size size_pos => exact size_pos
  | shortString capacity => exact Nat.succ_pos capacity
  | array dims element => exact element.leaf_size_pos

theorem StorageType.cxx_eq (t : StorageType) : t.cxx = nestArrays t.levels t.leaf := by
  cases t with
  | scalar name size size_pos => rfl
  | shortString capacity => rfl
  | array dims element =>
    simp only [StorageType.cxx, StorageType.levels, StorageType.leaf, nestArrays_append]
    rw [element.cxx_eq]

end

section
variable {target : TargetInfo} {index low : Value} {size : Nat}

theorem holds_of_reach {t : IntType} (h : target.pointerBits ≤ t.bits) {v : Int} (hlo : 0 ≤ v)
    (hhi : v < 2^(target.pointerBits-1)) : t.Holds v := by
  have hmono := IntType.two_pow_mono (Nat.sub_le_sub_right h 1)
  have hsplit := t.two_pow_split
  cases hs : t.signed with
  | true =>
    rw [IntType.holds_signed hs]
    omega
  | false =>
    rw [IntType.holds_unsigned hs]
    omega

theorem binary_sub (index low : Value) :
    index.binary (· - ·) low =
      arithmetic (index.type.usual low.type) (index.word.val - low.word.val) := by
  simp only [Value.binary]
  cases hs : (index.type.usual low.type).signed with
  | true =>
    have hwithin := IntType.usual_within hs
    rw [IntType.reduce_of_holds (hwithin.1.holds index.word.mem),
      IntType.reduce_of_holds (hwithin.2.holds low.word.mem)]
  | false =>
    have hcongr : Word.ofInt (index.type.usual low.type)
        ((index.type.usual low.type).reduce index.word.val -
          (index.type.usual low.type).reduce low.word.val) =
        Word.ofInt (index.type.usual low.type) (index.word.val - low.word.val) := by
      ext
      exact IntType.reduce_sub _ _ _
    simp [arithmetic, hs, hcongr]

theorem offset_of_difference (target : TargetInfo) {t : IntType} (w : Word t) (hlo : 0 ≤ w.val) (hsize : 0 < size)
    (hreach : w.val * size < 2^(target.pointerBits-1)) (hsizeReach : (size : Int) < 2^(target.pointerBits-1)) :
    ((Value.mk t w).binary (· * ·) ⟨target.sizeT, .ofInt target.sizeT size⟩).map
      (fun offset => (offset.word.cast target.ptrdiffT).val) = some (w.val * size) := by
  have hwide : target.pointerBits ≤ (t.usual target.sizeT).bits :=
    IntType.usual_bits_le_right t target.sizeT
  have hprod : 0 ≤ w.val * size := Int.mul_nonneg hlo (Int.natCast_nonneg size)
  have hle : w.val ≤ w.val * size := by
    have hone : (1 : Int) ≤ size := by omega
    have hmul := Int.mul_le_mul_of_nonneg_left hone hlo
    omega
  have hw := holds_of_reach hwide hlo (Int.lt_of_le_of_lt hle hreach)
  have hs := holds_of_reach hwide (Int.natCast_nonneg size) hsizeReach
  have hsT : target.sizeT.Holds size :=
    holds_of_reach (Nat.le_refl _) (Int.natCast_nonneg size) hsizeReach
  have hp := holds_of_reach hwide hprod hreach
  have hpT : target.ptrdiffT.Holds (w.val * size) := holds_of_reach (Nat.le_refl _) hprod hreach
  simp only [Value.binary, Word.ofInt_val, IntType.reduce_of_holds hsT, IntType.reduce_of_holds hw,
    IntType.reduce_of_holds hs]
  simp [arithmetic, hp, IntType.reduce_of_holds hp, IntType.reduce_of_holds hpT]

theorem reduce_le {t : IntType} {v : Int} (hv : 0 ≤ v) (h : t.signed = false ∨ t.Holds v) :
    0 ≤ t.reduce v ∧ t.reduce v ≤ v := by
  by_cases hholds : t.Holds v
  · rw [IntType.reduce_of_holds hholds]
    omega
  · have hs : t.signed = false := h.resolve_right hholds
    have hpow := IntType.two_pow_pos t.bits
    have hsplit := Int.emod_add_mul_ediv v (2^t.bits)
    have hrest := Int.mul_nonneg (Int.le_of_lt hpow) (Int.ediv_nonneg hv (Int.le_of_lt hpow))
    simp only [IntType.reduce, hs, Bool.false_eq_true, if_false]
    exact ⟨Int.emod_nonneg v (Int.ne_of_gt hpow), by omega⟩

/-- The offset of an index within bounds: undefined where a signed subtraction overflows, and the
distance as the subtraction tells it otherwise. -/
theorem indexOffset_eq (hlo : low.word.val ≤ index.word.val) (hsize : 0 < size)
    (hreach : (index.word.val - low.word.val) * size < 2^(target.pointerBits-1))
    (hsizeReach : (size : Int) < 2^(target.pointerBits-1)) :
    indexOffset target index low size =
      if (index.type.usual low.type).signed = true ∧
          ¬ (index.type.usual low.type).Holds (index.word.val - low.word.val) then none
      else some ((index.type.usual low.type).reduce (index.word.val - low.word.val) * size) := by
  have hdist : 0 ≤ index.word.val - low.word.val := by omega
  simp only [indexOffset, binary_sub, arithmetic]
  split
  · rfl
  · rename_i hdefined
    have hkind : (index.type.usual low.type).signed = false ∨
        (index.type.usual low.type).Holds (index.word.val - low.word.val) := by
      cases hs : (index.type.usual low.type).signed with
      | false => exact .inl rfl
      | true => exact .inr (by_contra fun hnot => hdefined ⟨hs, hnot⟩)
    obtain ⟨hnonneg, hle⟩ := reduce_le hdist hkind
    have hmul : (index.type.usual low.type).reduce (index.word.val - low.word.val) * size ≤
        (index.word.val - low.word.val) * size :=
      Int.mul_le_mul_of_nonneg_right hle (Int.natCast_nonneg size)
    have hoffset := offset_of_difference target
      (Word.ofInt (index.type.usual low.type) (index.word.val - low.word.val)) hnonneg hsize
      (Int.lt_of_le_of_lt hmul hreach) hsizeReach
    simpa [Option.map_eq_bind] using hoffset

theorem indexOffset_le {o : Int} (hlo : low.word.val ≤ index.word.val) (hsize : 0 < size)
    (hreach : (index.word.val - low.word.val) * size < 2^(target.pointerBits-1))
    (hsizeReach : (size : Int) < 2^(target.pointerBits-1))
    (h : indexOffset target index low size = some o) :
    o ≤ (index.word.val - low.word.val) * size ∧
      (o = (index.word.val - low.word.val) * size →
        (index.type.usual low.type).Holds (index.word.val - low.word.val)) := by
  have hdist : 0 ≤ index.word.val - low.word.val := by omega
  rw [indexOffset_eq hlo hsize hreach hsizeReach] at h
  split at h
  · cases h
  · rename_i hdefined
    cases h
    have hkind : (index.type.usual low.type).signed = false ∨
        (index.type.usual low.type).Holds (index.word.val - low.word.val) := by
      cases hs : (index.type.usual low.type).signed with
      | false => exact .inl rfl
      | true => exact .inr (by_contra fun hnot => hdefined ⟨hs, hnot⟩)
    refine ⟨Int.mul_le_mul_of_nonneg_right (reduce_le hdist hkind).2 (Int.natCast_nonneg size), ?_⟩
    intro heq
    have hne : (size : Int) ≠ 0 := by omega
    exact IntType.reduce_eq_self_iff.mp (Int.eq_of_mul_eq_mul_right hne heq)

end

section
variable {target : TargetInfo} {element leaf : CxxStorage} {dims : List ArrayDim}
  {indices : List Value} {base : ByteDesignator}

theorem rowMajorDesignator_nil (levels : List ArrayDim) (address : Int) :
    rowMajorDesignator levels leaf address [] = ⟨address, nestArrays levels leaf⟩ := by
  cases levels <;> simp [rowMajorDesignator, positions]

theorem rowMajorDesignator_cons {index : Value} {dim : ArrayDim} (address : Int)
    (h : dim.low.word.val ≤ index.word.val) :
    rowMajorDesignator (dim :: dims) leaf address (index :: indices) =
      rowMajorDesignator dims leaf
        (address + (index.word.val - dim.low.word.val) * (nestArrays dims leaf).size) indices := by
  have hdist : ((index.word.val - dim.low.word.val).toNat : Int) =
      index.word.val - dim.low.word.val := Int.toNat_of_nonneg (by omega)
  simp only [rowMajorDesignator, positions, List.map_cons, rowMajor, List.length_cons,
    List.drop_succ_cons, nestArrays_size]
  push_cast
  rw [hdist, Int.add_assoc]

theorem dimension_reach {index : Value} {dim : ArrayDim} {reach : Int}
    (hbounds : dim.low.word.val ≤ index.word.val ∧
      index.word.val < dim.low.word.val + dim.count)
    (hreach : ((nestArrays (dim :: dims) leaf).size : Int) < reach) :
    (index.word.val - dim.low.word.val) * (nestArrays dims leaf).size < reach ∧
      ((nestArrays dims leaf).size : Int) < reach := by
  have hsize : ((nestArrays (dim :: dims) leaf).size : Int) =
      dim.count * (nestArrays dims leaf).size := by
    simp [CxxStorage.size]
  have hone : ((nestArrays dims leaf).size : Int) ≤ dim.count * (nestArrays dims leaf).size := by
    have hcount := dim.count_pos
    have hmul := Int.mul_le_mul_of_nonneg_right (show (1 : Int) ≤ dim.count by omega)
      (Int.natCast_nonneg (nestArrays dims leaf).size)
    omega
  have hdist : (index.word.val - dim.low.word.val) * (nestArrays dims leaf).size ≤
      dim.count * (nestArrays dims leaf).size :=
    Int.mul_le_mul_of_nonneg_right (by omega) (Int.natCast_nonneg _)
  omega

theorem composeIndices_fit (hpos : 0 < element.size) (hbounds : InBounds dims indices)
    (hfit : DistancesFit dims indices)
    (hreach : ((nestArrays dims element).size : Int) < 2^(target.pointerBits-1))
    (hbase : base.cxx = nestArrays dims element) :
    composeIndices target element indices dims base =
      some (rowMajorDesignator dims element base.address indices) := by
  induction indices generalizing dims base with
  | nil => simp [composeIndices, rowMajorDesignator_nil, ← hbase]
  | cons index indices ih =>
    cases dims with
    | nil => exact hbounds.elim
    | cons dim dims =>
      obtain ⟨hdim, hrest⟩ := hbounds
      obtain ⟨hoffsetReach, hsizeReach⟩ := dimension_reach hdim hreach
      have hoffset : indexOffset target index dim.low (nestArrays dims element).size =
          some ((index.word.val - dim.low.word.val) * (nestArrays dims element).size) := by
        rw [indexOffset_eq hdim.1 (nestArrays_size_pos hpos) hoffsetReach hsizeReach,
          if_neg fun hnot => hnot.2 hfit.1, IntType.reduce_of_holds hfit.1]
      simp only [composeIndices, hoffset, Option.bind_eq_bind, Option.bind_some]
      rw [ih hrest hfit.2 hsizeReach rfl, rowMajorDesignator_cons _ hdim.1]

theorem composeIndices_le {d : ByteDesignator} (hpos : 0 < element.size)
    (hbounds : InBounds dims indices)
    (hreach : ((nestArrays dims element).size : Int) < 2^(target.pointerBits-1))
    (hbase : base.cxx = nestArrays dims element)
    (h : composeIndices target element indices dims base = some d) :
    d.cxx = nestArrays (dims.drop indices.length) element ∧
      d.address ≤ (rowMajorDesignator dims element base.address indices).address ∧
      (d.address = (rowMajorDesignator dims element base.address indices).address →
        DistancesFit dims indices) := by
  induction indices generalizing dims base with
  | nil =>
    simp only [composeIndices, Option.some.injEq] at h
    subst h
    simp [rowMajorDesignator_nil, hbase, DistancesFit]
  | cons index indices ih =>
    cases dims with
    | nil => exact hbounds.elim
    | cons dim dims =>
      obtain ⟨hdim, hrest⟩ := hbounds
      obtain ⟨hoffsetReach, hsizeReach⟩ := dimension_reach hdim hreach
      simp only [composeIndices, Option.bind_eq_bind, Option.bind_eq_some_iff] at h
      obtain ⟨o, hoffset, h⟩ := h
      obtain ⟨hle, hfit⟩ := indexOffset_le hdim.1 (nestArrays_size_pos hpos) hoffsetReach
        hsizeReach hoffset
      obtain ⟨hcxx, haddress, hall⟩ := ih hrest hsizeReach rfl h
      simp only [rowMajorDesignator_cons _ hdim.1]
      simp only [rowMajorDesignator] at haddress hall ⊢
      refine ⟨hcxx, by omega, fun heq => ⟨hfit (by omega), hall (by omega)⟩⟩

end

section
variable {dims inner : List ArrayDim} {bracket rest : List Value} {leaf : CxxStorage}

theorem inBounds_left (h : bracket.length ≤ dims.length) :
    InBounds (dims ++ inner) bracket ↔ InBounds dims bracket := by
  induction dims generalizing bracket with
  | nil =>
    have hnil := List.length_eq_zero_iff.mp (Nat.le_zero.mp h)
    simp [hnil, InBounds]
  | cons dim dims ih =>
    cases bracket with
    | nil => simp [InBounds]
    | cons index bracket => simp [InBounds, ih (Nat.le_of_succ_le_succ h)]

theorem inBounds_append (h : bracket.length = dims.length) :
    InBounds (dims ++ inner) (bracket ++ rest) ↔ InBounds dims bracket ∧ InBounds inner rest := by
  induction dims generalizing bracket with
  | nil =>
    have hnil := List.length_eq_zero_iff.mp h
    simp [hnil, InBounds]
  | cons dim dims ih =>
    cases bracket with
    | nil => simp at h
    | cons index bracket => simp [InBounds, ih (Nat.succ.inj h), and_assoc]

theorem distancesFit_left (h : bracket.length ≤ dims.length) :
    DistancesFit (dims ++ inner) bracket ↔ DistancesFit dims bracket := by
  induction dims generalizing bracket with
  | nil =>
    have hnil := List.length_eq_zero_iff.mp (Nat.le_zero.mp h)
    simp [hnil, DistancesFit]
  | cons dim dims ih =>
    cases bracket with
    | nil => simp [DistancesFit]
    | cons index bracket => simp [DistancesFit, ih (Nat.le_of_succ_le_succ h)]

theorem distancesFit_append (h : bracket.length = dims.length) :
    DistancesFit (dims ++ inner) (bracket ++ rest) ↔
      DistancesFit dims bracket ∧ DistancesFit inner rest := by
  induction dims generalizing bracket with
  | nil =>
    have hnil := List.length_eq_zero_iff.mp h
    simp [hnil, DistancesFit]
  | cons dim dims ih =>
    cases bracket with
    | nil => simp at h
    | cons index bracket => simp [DistancesFit, ih (Nat.succ.inj h), and_assoc]

theorem rowMajorDesignator_left (address : Int) (h : bracket.length ≤ dims.length)
    (hbounds : InBounds dims bracket) :
    rowMajorDesignator (dims ++ inner) leaf address bracket =
      rowMajorDesignator dims (nestArrays inner leaf) address bracket := by
  induction bracket generalizing dims address with
  | nil => simp [rowMajorDesignator_nil, nestArrays_append]
  | cons index bracket ih =>
    cases dims with
    | nil => exact hbounds.elim
    | cons dim dims =>
      rw [List.cons_append, rowMajorDesignator_cons _ hbounds.1.1,
        rowMajorDesignator_cons _ hbounds.1.1, ih _ (Nat.le_of_succ_le_succ h) hbounds.2,
        nestArrays_append]

theorem rowMajorDesignator_append (address : Int) (h : bracket.length = dims.length)
    (hbounds : InBounds dims bracket) :
    rowMajorDesignator (dims ++ inner) leaf address (bracket ++ rest) =
      rowMajorDesignator inner leaf
        (rowMajorDesignator dims (nestArrays inner leaf) address bracket).address rest := by
  induction bracket generalizing dims address with
  | nil =>
    have hnil := List.length_eq_zero_iff.mp h.symm
    simp [hnil, rowMajorDesignator_nil]
  | cons index bracket ih =>
    cases dims with
    | nil => exact hbounds.elim
    | cons dim dims =>
      rw [List.cons_append, List.cons_append, rowMajorDesignator_cons _ hbounds.1.1,
        rowMajorDesignator_cons _ hbounds.1.1, ih _ (Nat.succ.inj h) hbounds.2, nestArrays_append]

end

def followBrackets (target : TargetInfo) :
    List (List Value) → ByteDesignator → Option StorageType → Option ByteDesignator
  | [], base, _ => some base
  | bracket :: brackets, base, type => do
    let t ← type
    let d ← rawAddressIndexDesignator target bracket base t
    followBrackets target brackets d t.indexed

theorem storageDesignator_index (s : ByteStorage) (e : StorageExpr) (indices : List Value) :
    s.storageDesignator (.index e indices) =
      (s.storageDesignator e).bind fun base =>
        (s.deduceType e).bind (rawAddressIndexDesignator s.target indices base) := by
  rw [ByteStorage.storageDesignator]
  split
  · rename_i view hview
    unfold ByteStorage.untypedStorageIndexView at hview
    split at hview
    · rename_i index heq
      cases heq
      split at hview
      · rename_i dim _ hdims
        cases hview
        simp [ByteStorage.storageDesignator, ByteStorage.deduceType, ByteStorage.type, hdims,
          rawAddressIndexDesignator, composeIndices, Option.map_eq_bind]
      · cases hview
    · cases hview
  · rfl

theorem storageDesignator_chain (s : ByteStorage) (brackets : List (List Value)) (e : StorageExpr) :
    s.storageDesignator (brackets.foldl .index e) =
      (s.storageDesignator e).bind fun base =>
        followBrackets s.target brackets base (s.deduceType e) := by
  induction brackets generalizing e with
  | nil => simp [followBrackets]
  | cons bracket brackets ih =>
    rw [List.foldl_cons, ih, storageDesignator_index]
    simp only [followBrackets, ByteStorage.deduceType, Option.bind_eq_bind]
    cases s.storageDesignator e with
    | none => rfl
    | some base =>
      cases s.deduceType e with
      | none => rfl
      | some t => rfl

section
variable {target : TargetInfo} {brackets : List (List Value)} {base d : ByteDesignator}
  {t : StorageType}

theorem composeIndices_cxx {element : CxxStorage} {indices : List Value} {dims : List ArrayDim}
    (hne : indices ≠ []) (h : composeIndices target element indices dims base = some d) :
    d.cxx = nestArrays (dims.drop indices.length) element ∧ indices.length ≤ dims.length := by
  induction indices generalizing dims base with
  | nil => exact absurd rfl hne
  | cons index indices ih =>
    cases dims with
    | nil => simp [composeIndices] at h
    | cons dim dims =>
      simp only [composeIndices, Option.bind_eq_bind, Option.bind_eq_some_iff] at h
      obtain ⟨o, _, h⟩ := h
      by_cases hnil : indices = []
      · subst hnil
        simp only [composeIndices, Option.some.injEq] at h
        simp [← h]
      · obtain ⟨hcxx, hlength⟩ := ih hnil h
        exact ⟨hcxx, Nat.succ_le_succ hlength⟩

theorem rawAddressIndexDesignator_array {indices : List Value} {dims : List ArrayDim}
    {element : StorageType} (hne : indices ≠ []) :
    rawAddressIndexDesignator target indices base (.array dims element) =
      if dims.length < indices.length then none
      else composeIndices target element.cxx indices dims base := by
  cases indices with
  | nil => exact absurd rfl hne
  | cons index indices => cases indices <;> simp [rawAddressIndexDesignator]

theorem rawAddressIndexDesignator_depth {indices : List Value}
    (h : rawAddressIndexDesignator target indices base t = some d) :
    d.cxx.depth + indices.length = t.cxx.depth ∧
      ∀ t', t.indexed = some t' → t'.cxx.depth ≤ d.cxx.depth := by
  have hne : indices ≠ [] := by
    intro hnil
    simp [rawAddressIndexDesignator, hnil] at h
  cases t with
  | scalar name size size_pos => simp [rawAddressIndexDesignator] at h
  | shortString capacity =>
    simp only [rawAddressIndexDesignator, if_neg hne] at h
    split at h
    · cases h
      simp [StorageType.cxx, pCharStorage, CxxStorage.depth, StorageType.indexed]
    · cases h
    · rename_i heq
      cases heq
    · rename_i heq
      cases heq
  | array dims element =>
    rw [rawAddressIndexDesignator_array hne] at h
    split at h
    · cases h
    · obtain ⟨hcxx, hlength⟩ := composeIndices_cxx hne h
      simp only [hcxx, nestArrays_depth, List.length_drop, StorageType.cxx, StorageType.indexed,
        Option.some.injEq]
      refine ⟨by omega, ?_⟩
      intro t' ht'
      subst ht'
      omega

theorem followBrackets_depth (hne : brackets ≠ [])
    (h : followBrackets target brackets base (some t) = some d) :
    d.cxx.depth + brackets.flatten.length ≤ t.cxx.depth := by
  induction brackets generalizing base t with
  | nil => exact absurd rfl hne
  | cons bracket brackets ih =>
    simp only [followBrackets, Option.bind_eq_bind, Option.bind_some, Option.bind_eq_some_iff] at h
    obtain ⟨first, hfirst, h⟩ := h
    obtain ⟨hdepth, hindexed⟩ := rawAddressIndexDesignator_depth hfirst
    by_cases hnil : brackets = []
    · subst hnil
      simp only [followBrackets, Option.some.injEq] at h
      subst h
      simp only [List.flatten_cons, List.flatten_nil, List.append_nil]
      omega
    · cases ht : t.indexed with
      | none =>
        rw [ht] at h
        cases brackets with
        | nil => exact absurd rfl hnil
        | cons bracket' brackets => simp [followBrackets] at h
      | some t' =>
        rw [ht] at h
        have hrest := ih hnil h
        have hle := hindexed t' ht
        simp only [List.flatten_cons, List.length_append]
        omega

theorem exists_array {bracket : List Value} (hne : bracket ≠ [])
    (hbounds : InBounds t.levels (bracket ++ brackets.flatten)) :
    ∃ dims element, t = .array dims element := by
  cases t with
  | array dims element => exact ⟨dims, element, rfl⟩
  | _ =>
    cases bracket with
    | nil => exact absurd rfl hne
    | cons index bracket => exact hbounds.elim

theorem aligned_cons {bracket : List Value} {dims : List ArrayDim} {element : StorageType}
    (hne : brackets ≠ []) :
    Aligned (.array dims element) (bracket :: brackets) ↔
      bracket.length = dims.length ∧ Aligned element brackets := by
  cases brackets with
  | nil => exact absurd rfl hne
  | cons next brackets => rfl

theorem followBrackets_fit (hnonempty : ∀ bracket ∈ brackets, bracket ≠ [])
    (hbounds : InBounds t.levels brackets.flatten) (haligned : Aligned t brackets)
    (hfit : DistancesFit t.levels brackets.flatten)
    (hreach : (t.cxx.size : Int) < 2^(target.pointerBits-1)) (hbase : base.cxx = t.cxx) :
    followBrackets target brackets base (some t) =
      some (rowMajorDesignator t.levels t.leaf base.address brackets.flatten) := by
  induction brackets generalizing base t with
  | nil =>
    rw [List.flatten_nil, rowMajorDesignator_nil, ← t.cxx_eq, ← hbase]
    rfl
  | cons bracket brackets ih =>
    have hne : bracket ≠ [] := hnonempty bracket List.mem_cons_self
    obtain ⟨dims, element, ht⟩ := exists_array hne hbounds
    subst ht
    have hpos : 0 < element.cxx.size := by
      rw [element.cxx_eq]
      exact nestArrays_size_pos element.leaf_size_pos
    simp only [followBrackets, Option.bind_eq_bind, Option.bind_some,
      rawAddressIndexDesignator_array hne, StorageType.levels, StorageType.leaf,
      List.flatten_cons] at hbounds hfit ⊢
    by_cases hnil : brackets = []
    · subst hnil
      have hlength : bracket.length ≤ dims.length := haligned
      simp only [List.flatten_nil, List.append_nil] at hbounds hfit ⊢
      rw [inBounds_left hlength] at hbounds
      rw [distancesFit_left hlength] at hfit
      rw [if_neg (Nat.not_lt.mpr hlength), composeIndices_fit hpos hbounds hfit hreach hbase,
        rowMajorDesignator_left _ hlength hbounds, element.cxx_eq]
      rfl
    · obtain ⟨hlength, hrest⟩ := (aligned_cons hnil).mp haligned
      rw [inBounds_append hlength] at hbounds
      rw [distancesFit_append hlength] at hfit
      rw [if_neg (Nat.not_lt.mpr (Nat.le_of_eq hlength)),
        composeIndices_fit hpos hbounds.1 hfit.1 hreach hbase, Option.bind_some,
        rowMajorDesignator_append _ hlength hbounds.1, ← element.cxx_eq]
      refine ih (fun b hb => hnonempty b (List.mem_cons_of_mem _ hb)) hbounds.2 hrest hfit.2 ?_ ?_
      · exact Int.lt_of_le_of_lt (Int.ofNat_le.mpr size_le_nestArrays) hreach
      · simp [rowMajorDesignator, hlength]

/-- A chain whose designator has as many levels as the indices leave is aligned; its address is
never behind the row-major one, and is the same only where the subtractions can tell the
distances. -/
theorem followBrackets_le (hnonempty : ∀ bracket ∈ brackets, bracket ≠ [])
    (hbounds : InBounds t.levels brackets.flatten)
    (hreach : (t.cxx.size : Int) < 2^(target.pointerBits-1)) (hbase : base.cxx = t.cxx)
    (h : followBrackets target brackets base (some t) = some d)
    (hdepth : d.cxx.depth + brackets.flatten.length = t.cxx.depth) :
    Aligned t brackets ∧
      d.address ≤ (rowMajorDesignator t.levels t.leaf base.address brackets.flatten).address ∧
      (d.address = (rowMajorDesignator t.levels t.leaf base.address brackets.flatten).address →
        DistancesFit t.levels brackets.flatten) := by
  induction brackets generalizing base t with
  | nil =>
    simp only [followBrackets, Option.some.injEq] at h
    subst h
    rw [List.flatten_nil, rowMajorDesignator_nil]
    refine ⟨by simp [Aligned], Int.le_refl _, fun _ => ?_⟩
    cases t.levels <;> trivial
  | cons bracket brackets ih =>
    have hne : bracket ≠ [] := hnonempty bracket List.mem_cons_self
    obtain ⟨dims, element, ht⟩ := exists_array hne hbounds
    subst ht
    have hpos : 0 < element.cxx.size := by
      rw [element.cxx_eq]
      exact nestArrays_size_pos element.leaf_size_pos
    simp only [followBrackets, Option.bind_eq_bind, Option.bind_some, Option.bind_eq_some_iff] at h
    obtain ⟨first, hfirst, h⟩ := h
    obtain ⟨hfirstDepth, _⟩ := rawAddressIndexDesignator_depth hfirst
    rw [rawAddressIndexDesignator_array hne] at hfirst
    split at hfirst
    · cases hfirst
    · rename_i hlt
      have hlength : bracket.length ≤ dims.length := Nat.not_lt.mp hlt
      simp only [StorageType.levels, StorageType.leaf, List.flatten_cons] at hbounds hdepth ⊢
      by_cases hnil : brackets = []
      · subst hnil
        simp only [followBrackets, Option.some.injEq] at h
        subst h
        simp only [List.flatten_nil, List.append_nil] at hbounds ⊢
        rw [inBounds_left hlength] at hbounds
        obtain ⟨_, hle, hfit⟩ := composeIndices_le hpos hbounds hreach hbase hfirst
        rw [rowMajorDesignator_left _ hlength hbounds, ← element.cxx_eq,
          distancesFit_left hlength]
        exact ⟨hlength, hle, hfit⟩
      · -- A bracket that leaves dimensions of its array unselected loses their levels.
        have hrestDepth := followBrackets_depth hnil h
        simp only [StorageType.cxx, nestArrays_depth, List.length_append] at hdepth hfirstDepth
        have hwhole : bracket.length = dims.length := by omega
        rw [inBounds_append hwhole] at hbounds
        obtain ⟨hcxx, hle, hfit⟩ := composeIndices_le hpos hbounds.1 hreach hbase hfirst
        rw [hwhole, List.drop_length] at hcxx
        obtain ⟨haligned, hleRest, hfitRest⟩ := ih
          (fun b hb => hnonempty b (List.mem_cons_of_mem _ hb)) hbounds.2
          (Int.lt_of_le_of_lt (Int.ofNat_le.mpr size_le_nestArrays) hreach) hcxx h (by omega)
        rw [rowMajorDesignator_append _ hwhole hbounds.1, ← element.cxx_eq,
          distancesFit_append hwhole, aligned_cons hnil]
        simp only [rowMajorDesignator] at hleRest hfitRest hle hfit ⊢
        refine ⟨⟨hwhole, haligned⟩, by omega, fun heq => ⟨hfit (by omega), hfitRest (by omega)⟩⟩

end

section
variable {levels : List ArrayDim} {indices indices' : List Value}

theorem InBounds.inCounts (h : InBounds levels indices) :
    InCounts (levels.map (·.count)) (positions levels indices) ∧
      (positions levels indices).length = indices.length ∧ indices.length ≤ levels.length := by
  induction indices generalizing levels with
  | nil => cases levels <;> simp [positions, InCounts]
  | cons index indices ih =>
    cases levels with
    | nil => exact h.elim
    | cons dim levels =>
      obtain ⟨hcounts, hlength, hle⟩ := ih h.2
      have hfirst := h.1
      simp only [positions, List.map_cons, InCounts, List.length_cons]
      exact ⟨⟨by omega, hcounts⟩, by omega, by omega⟩

theorem InBounds.positions_inj (h : InBounds levels indices) (h' : InBounds levels indices')
    (heq : positions levels indices = positions levels indices') :
    indices.map (·.word.val) = indices'.map (·.word.val) := by
  induction indices generalizing levels indices' with
  | nil =>
    have hlength := congrArg List.length heq
    rw [h.inCounts.2.1, h'.inCounts.2.1] at hlength
    rw [List.length_eq_zero_iff.mp hlength.symm]
  | cons index indices ih =>
    cases levels with
    | nil => exact h.elim
    | cons dim levels =>
      cases indices' with
      | nil => simp [positions] at heq
      | cons index' indices' =>
        obtain ⟨hhead, htail⟩ := List.cons.inj heq
        have hfirst := h.1
        have hfirst' := h'.1
        rw [List.map_cons, List.map_cons, ih h.2 h'.2 htail]
        congr 1
        omega

end

section
variable {s : ByteStorage} (c : IndexChain s)

theorem IndexChain.designator_eq :
    c.designator = followBrackets s.target c.brackets ⟨s.address, s.type.cxx⟩ (some s.type) := by
  rw [IndexChain.designator, ByteStorage.chainExpr, storageDesignator_chain]
  rfl

theorem ByteStorage.reach (s : ByteStorage) : (s.type.cxx.size : Int) < 2^(s.target.pointerBits-1) := by
  exact_mod_cast s.fits

theorem IndexChain.selected_depth :
    c.selected.cxx.depth + c.brackets.flatten.length = s.type.cxx.depth := by
  have hle := c.inBounds.inCounts.2.2
  rw [s.type.cxx_eq, nestArrays_depth]
  simp only [IndexChain.selected, rowMajorDesignator, nestArrays_depth, List.length_drop]
  omega

/-- The chain designates what row-major order selects exactly if it is aligned and the subtractions
can tell the distances. -/
theorem IndexChain.designator_iff :
    c.designator = some c.selected ↔
      Aligned s.type c.brackets ∧ DistancesFit s.type.levels c.brackets.flatten := by
  rw [c.designator_eq]
  constructor
  · intro h
    obtain ⟨haligned, _, hfit⟩ :=
      followBrackets_le c.nonempty c.inBounds s.reach rfl h c.selected_depth
    exact ⟨haligned, hfit rfl⟩
  · intro h
    exact followBrackets_fit c.nonempty c.inBounds h.1 h.2 s.reach rfl

theorem IndexChain.selected_size :
    c.selected.cxx.size =
      ((s.type.levels.map (·.count)).drop (positions s.type.levels c.brackets.flatten).length).prod *
        s.type.leaf.size := by
  rw [c.inBounds.inCounts.2.1, ← List.map_drop, ← nestArrays_size]
  rfl

theorem IndexChain.selected_inside :
    s.address ≤ c.selected.address ∧
      c.selected.address + c.selected.cxx.size ≤ s.address + s.type.cxx.size := by
  have hend : rowMajor s.type.leaf.size (s.type.levels.map (·.count))
      (positions s.type.levels c.brackets.flatten) + c.selected.cxx.size ≤ s.type.cxx.size := by
    rw [c.selected_size, s.type.cxx_eq, nestArrays_size]
    exact rowMajor_end_le c.inBounds.inCounts.1
  simp only [IndexChain.selected, rowMajorDesignator] at hend ⊢
  omega

theorem IndexChain.selected_disjoint (c' : IndexChain s) (h : c.Full) (h' : c'.Full)
    (hne : c.brackets.flatten.map (·.word.val) ≠ c'.brackets.flatten.map (·.word.val)) :
    c.selected.Disjoint c'.selected := by
  have hlength : (positions s.type.levels c.brackets.flatten).length =
      (positions s.type.levels c'.brackets.flatten).length := by
    rw [c.inBounds.inCounts.2.1, c'.inBounds.inCounts.2.1, h, h']
  have hpositions : positions s.type.levels c.brackets.flatten ≠
      positions s.type.levels c'.brackets.flatten :=
    fun heq => hne (c.inBounds.positions_inj c'.inBounds heq)
  have hdisjoint := @rowMajor_disjoint s.type.leaf.size _ _ _ c.inBounds.inCounts.1
    c'.inBounds.inCounts.1 hlength hpositions
  rw [← c.selected_size, ← c'.selected_size] at hdisjoint
  simp only [ByteDesignator.Disjoint, IndexChain.selected, rowMajorDesignator] at hdisjoint ⊢
  omega

end

/-- The bracket-by-bracket address is the row-major one exactly for aligned chains whose distances
the subtractions can tell; the places that row-major order selects lie inside the array, and apart. -/
theorem arrayIndex_rowMajor_iff (s : ByteStorage) (c : IndexChain s) :
    (c.designator = some c.selected ↔
      Aligned s.type c.brackets ∧ DistancesFit s.type.levels c.brackets.flatten) ∧
    (s.address ≤ c.selected.address ∧
      c.selected.address + c.selected.cxx.size ≤ s.address + s.type.cxx.size) ∧
    ∀ c' : IndexChain s, c.Full → c'.Full →
      c.brackets.flatten.map (·.word.val) ≠ c'.brackets.flatten.map (·.word.val) →
      c.selected.Disjoint c'.selected :=
  ⟨c.designator_iff, c.selected_inside, fun c' h h' hne => c.selected_disjoint c' h h' hne⟩

/-- `array[1..2, 1..3] of array[0..4] of byte` at address 1000. -/
def splitStorage : ByteStorage where
  target := ⟨64, TargetInfo.sixtyFour⟩
  address := 1000
  dims := [⟨⟨.int, .ofInt .int 1⟩, 2, by decide⟩, ⟨⟨.int, .ofInt .int 1⟩, 3, by decide⟩]
  element := .array [⟨⟨.int, .ofInt .int 0⟩, 5, by decide⟩] (.scalar "::rt::p_byte" 1 (by decide))
  untyped := false
  fits := by decide

/-- `a[1][2]` -/
def splitChain : IndexChain splitStorage where
  brackets := [[⟨.int, .ofInt .int 1⟩], [⟨.int, .ofInt .int 2⟩]]
  nonempty := by decide
  inBounds := by decide

/-- `a[1, 2]` -/
def joinedChain : IndexChain splitStorage where
  brackets := [[⟨.int, .ofInt .int 1⟩, ⟨.int, .ofInt .int 2⟩]]
  nonempty := by decide
  inBounds := by decide

theorem arrayIndex_joined : joinedChain.designator = some joinedChain.selected :=
  (arrayIndex_rowMajor_iff splitStorage joinedChain).1.mpr
    ⟨show 2 ≤ 2 from le_refl 2, by decide, by decide, trivial⟩

/-- The second bracket is applied to the element type of the whole array: the address is two bytes
behind the array's, not five. -/
theorem split_address : splitChain.designator.map (·.address) ≠ some splitChain.selected.address := by
  decide

end Tp2cc
