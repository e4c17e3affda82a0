import Mathlib.Algebra.BigOperators.Group.List.Basic
import Mathlib.Algebra.Ring.Nat

set_option autoImplicit false

namespace Machine

/-- The offset of the element or row that the numbers select, from the outermost dimension on.
`counts` are the lengths of the dimensions. -/
def rowMajor (size : Nat) : List Nat → List Nat → Nat
  | _ :: counts, x :: xs => x * (counts.prod * size) + rowMajor size counts xs
  | _, _ => 0

def InCounts : List Nat → List Nat → Prop
  | _, [] => True
  | [], _ :: _ => False
  | n :: counts, x :: xs => x < n ∧ InCounts counts xs

section
variable {size : Nat} {counts xs ys : List Nat}

@[simp] theorem rowMajor_nil : rowMajor size counts [] = 0 := by
  cases counts <;> rfl

theorem rowMajor_end_le (h : InCounts counts xs) :
    rowMajor size counts xs + (counts.drop xs.length).prod * size ≤ counts.prod * size := by
  induction xs generalizing counts with
  | nil => simp
  | cons x xs ih =>
    cases counts with
    | nil => exact h.elim
    | cons n counts =>
      have hrest := ih h.2
      have hrow : (x+1) * (counts.prod * size) ≤ n * (counts.prod * size) :=
        Nat.mul_le_mul_right _ h.1
      simp only [rowMajor, List.length_cons, List.drop_succ_cons, List.prod_cons]
      rw [Nat.add_mul, Nat.one_mul] at hrow
      rw [Nat.mul_assoc]
      omega

theorem rowMajor_disjoint (hx : InCounts counts xs) (hy : InCounts counts ys)
    (hlength : xs.length = ys.length) (hne : xs ≠ ys) :
    rowMajor size counts xs + (counts.drop xs.length).prod * size ≤ rowMajor size counts ys ∨
      rowMajor size counts ys + (counts.drop ys.length).prod * size ≤ rowMajor size counts xs := by
  induction xs generalizing counts ys with
  | nil => exact absurd (List.length_eq_zero_iff.mp hlength.symm).symm hne
  | cons x xs ih =>
    cases ys with
    | nil => simp at hlength
    | cons y ys =>
      cases counts with
      | nil => exact hx.elim
      | cons n counts =>
        have hxEnd : rowMajor size counts xs + (counts.drop xs.length).prod * size ≤
            counts.prod * size := rowMajor_end_le hx.2
        have hyEnd : rowMajor size counts ys + (counts.drop ys.length).prod * size ≤
            counts.prod * size := rowMajor_end_le hy.2
        simp only [rowMajor, List.length_cons, List.drop_succ_cons]
        rcases Nat.lt_trichotomy x y with hlt | heq | hgt
        · have hrow : (x+1) * (counts.prod * size) ≤ y * (counts.prod * size) :=
            Nat.mul_le_mul_right _ hlt
          rw [Nat.add_mul, Nat.one_mul] at hrow
          left
          omega
        · subst heq
          have hrest := ih hx.2 hy.2 (by simpa using hlength) (by simpa using hne)
          omega
        · have hrow : (y+1) * (counts.prod * size) ≤ x * (counts.prod * size) :=
            Nat.mul_le_mul_right _ hgt
          rw [Nat.add_mul, Nat.one_mul] at hrow
          right
          omega

end
end Machine
