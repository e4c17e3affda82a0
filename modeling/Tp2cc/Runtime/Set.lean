import Tp2cc.Machine.BitArray
import Tp2cc.Machine.Conversion
import Mathlib.Data.Set.SymmDiff

/-! `tp2cc_Set` of the runtime and the sets of ordinals that its values stand for. -/
set_option autoImplicit false

namespace Tp2cc.Rt
open Machine

/-- The carriers of set elements. An enumeration is the integer type under it. -/
inductive ElemType where
  | integer (t : IntType)
  | char
  | bool
  deriving DecidableEq

namespace ElemType

def carrier : ElemType → IntType
  | .integer t => t
  | .char => ⟨false, 8, IntType.eight_pos⟩
  | .bool => ⟨false, 1, Nat.one_pos⟩

abbrev Value (E : ElemType) : Type := Word E.carrier

def convert : (E : ElemType) → Int → E.Value
  | .integer t, v => .ofInt t v
  | .char, v => .ofInt _ v
  | .bool, v => .ofInt _ (if v = 0 then 0 else 1)

end ElemType

def cxxInt64 : IntType := ⟨true, 64, IntType.sixtyFour_pos⟩

structure Tp2ccSet (E : ElemType) where
  bits : BitArray 32

def Ordinal (v : Int) : Prop := 0 ≤ v ∧ v < 8*32

instance (v : Int) : Decidable (Ordinal v) := inferInstanceAs (Decidable (_ ∧ _))

def slot (i : Int) (h : Ordinal i) : Fin (8*32) :=
  ⟨i.toNat, by obtain ⟨h₁, h₂⟩ := h; omega⟩

namespace Tp2ccSet
variable {E F : ElemType}

def idx : (E : ElemType) → E.Value → Int
  | .char, e => (Word.cast .int e).val
  | .integer _, e => (Word.cast .int (Word.cast cxxInt64 e)).val
  | .bool, e => (Word.cast .int (Word.cast cxxInt64 e)).val

def empty (E : ElemType) : Tp2ccSet E := ⟨.empty⟩

def add (s : Tp2ccSet E) (e : E.Value) : Tp2ccSet E :=
  let i := idx E e
  if h : Ordinal i then ⟨s.bits.set (slot i h)⟩ else s

def contains (s : Tp2ccSet E) (e : E.Value) : Bool :=
  let i := idx E e
  if h : Ordinal i then s.bits.test (slot i h) else false

def fromList (E : ElemType) (xs : List E.Value) : Tp2ccSet E := xs.foldl add (empty E)

/-- The operators of one element type and the templates for two have the same bodies. -/
def union (a : Tp2ccSet E) (b : Tp2ccSet F) : Tp2ccSet E := ⟨a.bits.union b.bits⟩
def diff (a : Tp2ccSet E) (b : Tp2ccSet F) : Tp2ccSet E := ⟨a.bits.diff b.bits⟩
def inter (a : Tp2ccSet E) (b : Tp2ccSet F) : Tp2ccSet E := ⟨a.bits.inter b.bits⟩
def eq (a : Tp2ccSet E) (b : Tp2ccSet F) : Bool := a.bits.beq b.bits
def ne (a : Tp2ccSet E) (b : Tp2ccSet F) : Bool := !a.eq b
def le (a : Tp2ccSet E) (b : Tp2ccSet F) : Bool := a.bits.subset b.bits
def ge (a : Tp2ccSet E) (b : Tp2ccSet F) : Bool := b.le a

def symmetricDifference (a b : Tp2ccSet E) : Tp2ccSet E := ⟨a.bits.symmDiff b.bits⟩

def setCast (F : ElemType) (s : Tp2ccSet E) : Tp2ccSet F := ⟨s.bits⟩

/-- The body of a loop from `lo`, taken once for each number of the range. -/
def addFrom (s : Tp2ccSet E) (lo : Int) : Nat → Tp2ccSet E
  | 0 => s
  | n+1 => (s.add (E.convert lo)).addFrom (lo+1) n

/-- `for (int64_t v = lo; v <= hi; ++v) s.add(static_cast<Elem>(v));`, where the counter
must not step behind the greatest `int64_t`. -/
def addRange (s : Tp2ccSet E) (lo hi : Int) : Option (Tp2ccSet E) :=
  if lo ≤ hi ∧ hi = cxxInt64.hi then none else some (s.addFrom lo (hi+1-lo).toNat)

def pInclude (s : Tp2ccSet E) (v : Int) : Tp2ccSet E := s.add (E.convert v)

def pExclude (s : Tp2ccSet E) (v : Int) : Tp2ccSet E :=
  let i := idx E (E.convert v)
  if h : Ordinal i then ⟨s.bits.clear (slot i h)⟩ else s

def ordinals (s : Tp2ccSet E) : Set Int := {v | ∃ h : Ordinal v, s.bits.test (slot v h) = true}

end Tp2ccSet

structure SetElem (E : ElemType) where
  isRange : Bool
  lo : E.Value
  hi : E.Value

def SetElem.addTo {E : ElemType} (s : Tp2ccSet E) (x : SetElem E) : Option (Tp2ccSet E) :=
  if x.isRange then
    s.addRange (Word.cast cxxInt64 x.lo).val (Word.cast cxxInt64 x.hi).val
  else some (s.add x.lo)

def setOfRange (E : ElemType) (xs : List (SetElem E)) : Option (Tp2ccSet E) :=
  xs.foldlM SetElem.addTo (.empty E)

inductive LiteralElem (α : Type) where
  | value (v : α)
  | range (lo hi : α)
  deriving DecidableEq

def LiteralElem.map {α β : Type} (f : α → β) : LiteralElem α → LiteralElem β
  | .value v => .value (f v)
  | .range lo hi => .range (f lo) (f hi)

/-- The number of an operand, and whether its text is the constant that
`maybe_convert_const_int_expr` folds: no name, no intrinsic and no binary expression. -/
structure LiteralNumber where
  value : Int
  folds : Bool
  deriving DecidableEq

/-- The number of the text that `const_value_to_cxx` has for an operand, where `prim` is the
integer primitive that the element type is, if it is one. -/
def LiteralNumber.emitted (prim : Option IntType) (n : LiteralNumber) : Int :=
  match prim with
  | some t => if n.folds then t.reduce n.value else n.value
  | none => n.value

/-- The statement that the lambda of `set_literal_to_cxx` has for the numbers of one element. -/
def LiteralElem.addTo {E : ElemType} (s : Tp2ccSet E) : LiteralElem Int → Option (Tp2ccSet E)
  | .value v => some (s.add (E.convert v))
  | .range lo hi => s.addRange (cxxInt64.reduce lo) (cxxInt64.reduce hi)

def literalSet (E : ElemType) (xs : List (LiteralElem Int)) : Option (Tp2ccSet E) :=
  xs.foldlM LiteralElem.addTo (.empty E)

namespace Tp2ccSet
variable {E F : ElemType}

theorem slot_inj {v w : Int} (hv : Ordinal v) (hw : Ordinal w) : slot v hv = slot w hw ↔ v = w := by
  obtain ⟨h₁, h₂⟩ := hv
  obtain ⟨h₃, h₄⟩ := hw
  simp only [slot, Fin.mk.injEq]
  omega

theorem exists_slot (i : Fin (8*32)) : ∃ (v : Int) (h : Ordinal v), slot v h = i :=
  ⟨i.val, ⟨by omega, by omega⟩, by simp [slot]⟩

theorem ordinal_of_mem {s : Tp2ccSet E} {v : Int} (h : v ∈ s.ordinals) : Ordinal v := h.1

theorem mem_ordinals {s : Tp2ccSet E} {v : Int} (h : Ordinal v) :
    v ∈ s.ordinals ↔ s.bits.test (slot v h) = true := by
  simp [ordinals, h]

@[simp] theorem ordinals_empty : (empty E).ordinals = ∅ := by
  ext v
  simp [ordinals, empty]

theorem contains_iff (s : Tp2ccSet E) (e : E.Value) :
    s.contains e = true ↔ idx E e ∈ s.ordinals := by
  by_cases h : Ordinal (idx E e) <;> simp [contains, ordinals, h]

theorem mem_ordinals_add (s : Tp2ccSet E) (e : E.Value) (v : Int) :
    v ∈ (s.add e).ordinals ↔ v ∈ s.ordinals ∨ Ordinal v ∧ v = idx E e := by
  by_cases h : Ordinal (idx E e)
  · by_cases hv : Ordinal v
    · have hslot := slot_inj hv h
      simp [add, ordinals, h, hv, BitArray.test_set, hslot]
    · simp [add, ordinals, h, hv]
  · have hv : ¬(Ordinal v ∧ v = idx E e) := fun hv => h (hv.2 ▸ hv.1)
    simp [add, h, hv]

theorem mem_ordinals_pExclude (s : Tp2ccSet E) (u v : Int) :
    v ∈ (s.pExclude u).ordinals ↔ v ∈ s.ordinals ∧ v ≠ idx E (E.convert u) := by
  by_cases h : Ordinal (idx E (E.convert u))
  · by_cases hv : Ordinal v
    · have hslot := slot_inj hv h
      simp [pExclude, ordinals, h, hv, BitArray.test_clear, hslot]
    · simp [pExclude, ordinals, h, hv]
  · have hv : v ∈ s.ordinals → v ≠ idx E (E.convert u) := fun hv he => h (he ▸ hv.1)
    simp only [pExclude, h, dite_false]
    exact ⟨fun hs => ⟨hs, hv hs⟩, And.left⟩

@[simp] theorem ordinals_union (a : Tp2ccSet E) (b : Tp2ccSet F) :
    (a.union b).ordinals = a.ordinals ∪ b.ordinals := by
  ext v
  by_cases h : Ordinal v <;> simp [ordinals, union, h]

@[simp] theorem ordinals_diff (a : Tp2ccSet E) (b : Tp2ccSet F) :
    (a.diff b).ordinals = a.ordinals \ b.ordinals := by
  ext v
  by_cases h : Ordinal v <;> simp [ordinals, diff, h]

@[simp] theorem ordinals_inter (a : Tp2ccSet E) (b : Tp2ccSet F) :
    (a.inter b).ordinals = a.ordinals ∩ b.ordinals := by
  ext v
  by_cases h : Ordinal v <;> simp [ordinals, inter, h]

@[simp] theorem ordinals_symmetricDifference (a b : Tp2ccSet E) :
    (a.symmetricDifference b).ordinals = symmDiff a.ordinals b.ordinals := by
  ext v
  by_cases h : Ordinal v
  · cases ha : a.bits.test (slot v h) <;> cases hb : b.bits.test (slot v h) <;>
      simp [ordinals, symmetricDifference, Set.mem_symmDiff, h, ha, hb]
  · simp [ordinals, Set.mem_symmDiff, h]

@[simp] theorem ordinals_setCast (s : Tp2ccSet E) : (s.setCast F).ordinals = s.ordinals := rfl

theorem eq_iff (a : Tp2ccSet E) (b : Tp2ccSet F) : a.eq b = true ↔ a.ordinals = b.ordinals := by
  rw [eq, BitArray.beq_iff_test]
  constructor
  · intro h
    ext v
    simp only [ordinals, h]
  · intro h i
    obtain ⟨v, hv, rfl⟩ := exists_slot i
    have hmem : v ∈ a.ordinals ↔ v ∈ b.ordinals := by rw [h]
    rw [mem_ordinals hv, mem_ordinals hv] at hmem
    exact Bool.eq_iff_iff.mpr hmem

theorem le_iff (a : Tp2ccSet E) (b : Tp2ccSet F) : a.le b = true ↔ a.ordinals ⊆ b.ordinals := by
  rw [le, BitArray.subset_iff_test]
  constructor
  · intro h v hv
    exact ⟨hv.1, h _ hv.2⟩
  · intro h i hi
    obtain ⟨v, hv, rfl⟩ := exists_slot i
    exact (mem_ordinals hv).mp (h ((mem_ordinals hv).mpr hi))

end Tp2ccSet

section
variable {t : IntType}

theorem Ordinal.int_reduce {w : Int} (hw : Ordinal w) : IntType.int.reduce w = w := by
  obtain ⟨h₁, h₂⟩ := hw
  exact IntType.reduce_of_holds ⟨by simp [IntType.lo, IntType.int]; omega,
    by simp [IntType.hi, IntType.int]; omega⟩

theorem Ordinal.holds {w : Int} (hw : Ordinal w) (h : w ≤ t.hi) : t.Holds w :=
  ⟨t.holds_zero.1.trans hw.1, h⟩

theorem int_holds_of_small {u : Int} (hu : t.Holds u) (h : t.hi < 8*32) : IntType.int.Holds u := by
  have hlo : -(8*32) ≤ t.lo := by
    cases hs : t.signed with
    | true => simp only [IntType.lo, IntType.hi, hs, if_true] at h ⊢; omega
    | false => simp [IntType.lo, hs]
  obtain ⟨h₁, h₂⟩ := hu
  exact ⟨by simp [IntType.lo, IntType.int]; omega, by simp [IntType.hi, IntType.int]; omega⟩

/-- The ordinals that a value may become on its way through the type and `int`. -/
theorem int_reduce_eq_iff (t : IntType) (v : Int) {w : Int} (hw : Ordinal w) :
    IntType.int.reduce (t.reduce v) = w ↔
      t.Holds w ∧ w % 2^(min t.bits 32) = v % 2^(min t.bits 32) := by
  by_cases hb : t.bits ≤ 32
  · rw [Nat.min_eq_left hb]
    constructor
    · intro h
      have hd : (2 : Int)^t.bits ∣ 2^32 := pow_dvd_pow 2 hb
      have hmod : w % 2^32 = t.reduce v % 2^32 := h ▸ IntType.int.reduce_emod (t.reduce v)
      refine ⟨hw.holds ?_, ?_⟩
      · by_contra hlt
        have hu := int_holds_of_small (t.reduce_holds v) (by have := hw.2; omega)
        rw [IntType.reduce_of_holds hu] at h
        exact hlt (h ▸ (t.reduce_holds v).2)
      · rw [← Int.emod_emod_of_dvd w hd, hmod, Int.emod_emod_of_dvd _ hd, t.reduce_emod]
    · intro h
      rw [← IntType.reduce_congr h.2, IntType.reduce_of_holds h.1, hw.int_reduce]
  · rw [Nat.min_eq_right (by omega), IntType.reduce_through (t := .int) (by
      simp only [IntType.int]; omega)]
    constructor
    · intro h
      refine ⟨hw.holds ?_, h ▸ IntType.int.reduce_emod v⟩
      have hpow := IntType.two_pow_mono (m := 32) (n := t.bits-1) (by omega)
      have hsplit := t.two_pow_split
      have hlt := hw.2
      cases hs : t.signed <;> simp only [IntType.hi, hs, if_true, Bool.false_eq_true, if_false] <;>
        omega
    · intro h
      rw [← IntType.reduce_congr (t := .int) h.2, hw.int_reduce]

end

/-- The ordinal `w` is the number that an integer `v` has as an element. -/
def ElemType.Lands (E : ElemType) (v w : Int) : Prop :=
  match E with
  | .bool => w = if v = 0 then 0 else 1
  | E => E.carrier.Holds w ∧ w % 2^(min E.carrier.bits 32) = v % 2^(min E.carrier.bits 32)

theorem int_reduce_int64 (v : Int) :
    IntType.int.reduce (cxxInt64.reduce v) = IntType.int.reduce v :=
  IntType.reduce_through (by decide) v

theorem Tp2ccSet.idx_convert (E : ElemType) (v : Int) {w : Int} (hw : Ordinal w) :
    idx E (E.convert v) = w ↔ E.Lands v w := by
  cases E with
  | integer t =>
    have hidx : idx (.integer t) ((ElemType.integer t).convert v) =
        IntType.int.reduce (cxxInt64.reduce (t.reduce v)) := rfl
    rw [hidx, int_reduce_int64]
    exact int_reduce_eq_iff t v hw
  | char => exact int_reduce_eq_iff ElemType.char.carrier v hw
  | bool =>
    have hb : ElemType.bool.carrier.Holds (if v = 0 then 0 else 1) := by
      split <;> decide
    have ho : Ordinal (if v = 0 then 0 else 1) := by
      split <;> decide
    have hidx : idx .bool (ElemType.bool.convert v) = IntType.int.reduce (cxxInt64.reduce
        (ElemType.bool.carrier.reduce (if v = 0 then 0 else 1))) := rfl
    rw [hidx, int_reduce_int64, IntType.reduce_of_holds hb, ho.int_reduce]
    exact eq_comm

/-- No number from `lo` to `hi` becomes an ordinal outside that range on its way to the
bit array, and the ordinals among them are values of the element type. -/
structure ElemType.Keeps (E : ElemType) (lo hi : Int) : Prop where
  holds : ∀ w, lo ≤ w → w ≤ hi → Ordinal w → E.carrier.Holds w
  apart : ∀ v, lo ≤ v → v ≤ hi → ∀ w, Ordinal w → E.Lands v w → lo ≤ w ∧ w ≤ hi

theorem ElemType.lands_self {E : ElemType} {w : Int} (h : E.carrier.Holds w) : E.Lands w w := by
  cases E with
  | integer t => exact ⟨h, rfl⟩
  | char => exact ⟨h, rfl⟩
  | bool =>
    obtain ⟨h₁, h₂⟩ := h
    simp only [carrier, IntType.lo, IntType.hi, Bool.false_eq_true, if_false] at h₁ h₂
    simp only [Lands]
    split <;> omega

theorem ElemType.holds_of_lands {E : ElemType} {v w : Int} (h : E.Lands v w) :
    E.carrier.Holds w := by
  cases E with
  | integer t => exact h.1
  | char => exact h.1
  | bool =>
    simp only [Lands] at h
    subst h
    split <;> decide

/-- The range is kept exactly when the ordinals that it becomes are the ordinals in it. -/
theorem ElemType.keeps_iff {E : ElemType} {lo hi : Int} : E.Keeps lo hi ↔
    ∀ w, Ordinal w → ((∃ v, (lo ≤ v ∧ v ≤ hi) ∧ E.Lands v w) ↔ lo ≤ w ∧ w ≤ hi) := by
  constructor
  · intro h w hw
    constructor
    · rintro ⟨v, hv, hl⟩
      exact h.apart v hv.1 hv.2 w hw hl
    · intro hr
      exact ⟨w, hr, lands_self (h.holds w hr.1 hr.2 hw)⟩
  · intro h
    constructor
    · intro w h₁ h₂ hw
      obtain ⟨v, _, hl⟩ := (h w hw).mpr ⟨h₁, h₂⟩
      exact holds_of_lands hl
    · intro v h₁ h₂ w hw hl
      exact (h w hw).mp ⟨v, ⟨h₁, h₂⟩, hl⟩

theorem ElemType.keeps_self_iff {E : ElemType} {v : Int} : E.Keeps v v ↔
    ∀ w, Ordinal w → (E.Lands v w ↔ w = v) := by
  rw [keeps_iff]
  apply forall₂_congr
  intro w _
  constructor
  · intro h
    constructor
    · intro hl
      have := h.mp ⟨v, ⟨le_refl v, le_refl v⟩, hl⟩
      omega
    · intro hw
      obtain ⟨u, hu, hl⟩ := h.mpr ⟨hw.ge, hw.le⟩
      rwa [show v = u by omega]
  · intro h
    constructor
    · rintro ⟨u, hu, hl⟩
      have := h.mp (by rwa [show v = u by omega])
      omega
    · intro hw
      exact ⟨v, ⟨le_refl v, le_refl v⟩, h.mpr (by omega)⟩

namespace Tp2ccSet
variable {E : ElemType}

theorem mem_add_convert (s : Tp2ccSet E) (v w : Int) :
    w ∈ (s.add (E.convert v)).ordinals ↔ w ∈ s.ordinals ∨ Ordinal w ∧ E.Lands v w := by
  rw [mem_ordinals_add]
  apply or_congr_right
  apply and_congr_right
  intro hw
  rw [← idx_convert E v hw]
  exact eq_comm

theorem mem_addFrom (s : Tp2ccSet E) (lo : Int) (n : Nat) (w : Int) :
    w ∈ (s.addFrom lo n).ordinals ↔
      w ∈ s.ordinals ∨ Ordinal w ∧ ∃ v, (lo ≤ v ∧ v < lo+n) ∧ E.Lands v w := by
  induction n generalizing s lo with
  | zero =>
    simp only [addFrom, iff_self_or]
    rintro ⟨_, v, hv, _⟩
    omega
  | succ n ih =>
    have hstep : (∃ v, (lo ≤ v ∧ v < lo+(n+1 : Nat)) ∧ E.Lands v w) ↔
        E.Lands lo w ∨ ∃ v, (lo+1 ≤ v ∧ v < lo+1+n) ∧ E.Lands v w := by
      constructor
      · rintro ⟨v, hv, hl⟩
        by_cases h : v = lo
        · exact .inl (h ▸ hl)
        · exact .inr ⟨v, by omega, hl⟩
      · intro h
        cases h with
        | inl hl => exact ⟨lo, by omega, hl⟩
        | inr h =>
          obtain ⟨v, hv, hl⟩ := h
          exact ⟨v, by omega, hl⟩
    rw [addFrom, ih, mem_add_convert, hstep, and_or_left, or_assoc]

theorem mem_addRange (s : Tp2ccSet E) (lo hi w : Int) :
    w ∈ (s.addFrom lo (hi+1-lo).toNat).ordinals ↔
      w ∈ s.ordinals ∨ Ordinal w ∧ ∃ v, (lo ≤ v ∧ v ≤ hi) ∧ E.Lands v w := by
  rw [mem_addFrom]
  apply or_congr_right
  apply and_congr_right
  intro _
  apply exists_congr
  intro v
  apply and_congr_left
  intro _
  omega

end Tp2ccSet
end Tp2cc.Rt
