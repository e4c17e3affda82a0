import Mathlib.Data.Fintype.Defs
import Mathlib.Logic.Function.Basic

/-! Sets of small numbers as arrays of bytes with one bit for each number. Every
operation comes with the bits that it leaves. -/
set_option autoImplicit false

namespace Machine

structure BitArray (n : Nat) where
  byte : Fin n → BitVec 8

namespace BitArray
variable {n : Nat}

def byteOf (i : Fin (8*n)) : Fin n := ⟨i.val / 8, by omega⟩

def mask (i : Fin (8*n)) : BitVec 8 := 1#8 <<< (i.val % 8)

def empty : BitArray n := ⟨fun _ => 0⟩

def test (s : BitArray n) (i : Fin (8*n)) : Bool := (s.byte (byteOf i) &&& mask i) != 0

def set (s : BitArray n) (i : Fin (8*n)) : BitArray n :=
  ⟨Function.update s.byte (byteOf i) (s.byte (byteOf i) ||| mask i)⟩

def clear (s : BitArray n) (i : Fin (8*n)) : BitArray n :=
  ⟨Function.update s.byte (byteOf i) (s.byte (byteOf i) &&& ~~~mask i)⟩

def union (a b : BitArray n) : BitArray n := ⟨fun i => a.byte i ||| b.byte i⟩
def inter (a b : BitArray n) : BitArray n := ⟨fun i => a.byte i &&& b.byte i⟩
def diff (a b : BitArray n) : BitArray n := ⟨fun i => a.byte i &&& ~~~b.byte i⟩
def symmDiff (a b : BitArray n) : BitArray n := ⟨fun i => a.byte i ^^^ b.byte i⟩

/-- The loop over the bytes stops at the first that differs. -/
def beq (a b : BitArray n) : Bool := ∀ i, a.byte i = b.byte i

/-- The loop over the bytes stops at the first with a bit outside `b`. -/
def subset (a b : BitArray n) : Bool := ∀ i, a.byte i &&& ~~~b.byte i = 0

theorem mod_lt (i : Fin (8*n)) : i.val % 8 < 8 := Nat.mod_lt _ (by decide)

theorem mask_eq (i : Fin (8*n)) : mask i = BitVec.twoPow 8 (i.val % 8) :=
  (BitVec.twoPow_eq 8 _).symm

theorem getLsbD_mask (i : Fin (8*n)) (k : Nat) :
    (mask i).getLsbD k = decide (i.val % 8 = k) := by
  rw [mask_eq, BitVec.getLsbD_twoPow]
  simp [mod_lt i]

theorem test_eq (s : BitArray n) (i : Fin (8*n)) :
    s.test i = (s.byte (byteOf i)).getLsbD (i.val % 8) := by
  have hmask : BitVec.twoPow 8 (i.val % 8) ≠ 0 := by
    intro h
    have hbit := BitVec.getLsbD_twoPow (w := 8) (i.val % 8) (i.val % 8)
    simp [h, mod_lt i] at hbit
  rw [test, mask_eq, BitVec.and_twoPow]
  cases (s.byte (byteOf i)).getLsbD (i.val % 8) with
  | false => simp
  | true => simpa using hmask

@[simp] theorem test_empty (i : Fin (8*n)) : (empty : BitArray n).test i = false := by
  simp [test_eq, empty]

theorem eq_of_byteOf {i j : Fin (8*n)} (h : byteOf i = byteOf j) (hm : i.val % 8 = j.val % 8) :
    i = j := by
  have hd : i.val / 8 = j.val / 8 := congrArg Fin.val h
  omega

theorem eq_iff_mod {i j : Fin (8*n)} (h : byteOf j = byteOf i) :
    j = i ↔ i.val % 8 = j.val % 8 :=
  ⟨fun he => by rw [he], fun hm => eq_of_byteOf h hm.symm⟩

theorem test_set (s : BitArray n) (i j : Fin (8*n)) :
    (s.set i).test j = (s.test j || decide (j = i)) := by
  simp only [test_eq, set]
  by_cases hb : byteOf j = byteOf i
  · rw [hb, Function.update_self, BitVec.getLsbD_or, getLsbD_mask]
    simp only [eq_iff_mod hb]
  · have hj : j ≠ i := fun h => hb (by rw [h])
    rw [Function.update_of_ne hb]
    simp [hj]

theorem test_clear (s : BitArray n) (i j : Fin (8*n)) :
    (s.clear i).test j = (s.test j && !decide (j = i)) := by
  simp only [test_eq, clear]
  by_cases hb : byteOf j = byteOf i
  · rw [hb, Function.update_self, BitVec.getLsbD_and, BitVec.getLsbD_not, getLsbD_mask]
    simp only [eq_iff_mod hb, mod_lt j, decide_true, Bool.true_and]
  · have hj : j ≠ i := fun h => hb (by rw [h])
    rw [Function.update_of_ne hb]
    simp [hj]

@[simp] theorem test_union (a b : BitArray n) (i : Fin (8*n)) :
    (a.union b).test i = (a.test i || b.test i) := by
  simp [test_eq, union]

@[simp] theorem test_inter (a b : BitArray n) (i : Fin (8*n)) :
    (a.inter b).test i = (a.test i && b.test i) := by
  simp [test_eq, inter]

@[simp] theorem test_diff (a b : BitArray n) (i : Fin (8*n)) :
    (a.diff b).test i = (a.test i && !b.test i) := by
  simp [test_eq, diff, mod_lt i]

@[simp] theorem test_symmDiff (a b : BitArray n) (i : Fin (8*n)) :
    (a.symmDiff b).test i = (a.test i ^^ b.test i) := by
  simp [test_eq, symmDiff]

theorem getLsbD_byte (s : BitArray n) (i : Fin n) {k : Nat} (hk : k < 8) :
    (s.byte i).getLsbD k = s.test ⟨8*i.val+k, by omega⟩ := by
  have hb : byteOf ⟨8*i.val+k, by omega⟩ = i := Fin.ext (by simp only [byteOf]; omega)
  rw [test_eq, hb]
  congr 1
  simp only
  omega

theorem beq_iff_test (a b : BitArray n) : a.beq b = true ↔ ∀ i, a.test i = b.test i := by
  simp only [beq, decide_eq_true_eq]
  constructor
  · intro h i
    rw [test_eq, test_eq, h]
  · intro h i
    apply BitVec.eq_of_getLsbD_eq
    intro k hk
    rw [getLsbD_byte a i hk, getLsbD_byte b i hk, h]

theorem subset_iff_test (a b : BitArray n) :
    a.subset b = true ↔ ∀ i, a.test i = true → b.test i = true := by
  have hdiff : a.subset b = true ↔ (a.diff b).beq empty = true := by
    rw [subset, beq, decide_eq_true_iff, decide_eq_true_iff]
    rfl
  rw [hdiff, beq_iff_test]
  simp only [test_diff, test_empty, Bool.and_eq_false_iff, Bool.not_eq_false']
  constructor
  · intro h i hi
    cases h i with
    | inl hf => rw [hf] at hi; contradiction
    | inr ht => exact ht
  · intro h i
    cases hi : a.test i with
    | false => exact .inl rfl
    | true => exact .inr (h i hi)

end BitArray
end Machine
