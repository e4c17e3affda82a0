import Mathlib.Data.List.Infix

/-! Allocations that are never released: a reference is a place in a list that only
grows at its end. What was there before an operation that allocates is there after it. -/
set_option autoImplicit false

namespace Machine
universe u

structure Arena (α : Type u) where
  cells : List α

namespace Arena
variable {α : Type u}

def empty : Arena α := ⟨[]⟩

def next (a : Arena α) : Nat := a.cells.length

def push (a : Arena α) (x : α) : Arena α := ⟨a.cells ++ [x]⟩

def get? (a : Arena α) (i : Nat) : Option α := a.cells[i]?

def set (a : Arena α) (i : Nat) (x : α) : Arena α := ⟨a.cells.set i x⟩

def Extends (a b : Arena α) : Prop := a.cells <+: b.cells

theorem Extends.refl (a : Arena α) : a.Extends a := List.prefix_refl _

theorem Extends.trans {a b c : Arena α} (h : a.Extends b) (k : b.Extends c) : a.Extends c :=
  List.IsPrefix.trans h k

theorem extends_push (a : Arena α) (x : α) : a.Extends (a.push x) := List.prefix_append _ _

theorem Extends.next_le {a b : Arena α} (h : a.Extends b) : a.next ≤ b.next :=
  List.IsPrefix.length_le h

@[simp] theorem next_push (a : Arena α) (x : α) : (a.push x).next = a.next+1 := by
  simp [next, push]

@[simp] theorem next_set (a : Arena α) (i : Nat) (x : α) : (a.set i x).next = a.next := by
  simp [next, set]

@[simp] theorem get?_push_next (a : Arena α) (x : α) : (a.push x).get? a.next = some x := by
  simp [get?, push, next]

theorem Extends.get? {a b : Arena α} (h : a.Extends b) {i : Nat} (hi : i < a.next) :
    b.get? i = a.get? i := by
  obtain ⟨rest, hrest⟩ := h
  rw [Arena.get?, ← hrest, List.getElem?_append_left hi]
  rfl

/-- A write to the latest allocation is as good as an allocation of what it leaves. -/
@[simp] theorem set_push_next (a : Arena α) (x y : α) : (a.push x).set a.next y = a.push y := by
  simp [set, push, next]

theorem get?_set_self {a : Arena α} {i : Nat} (hi : i < a.next) (x : α) :
    (a.set i x).get? i = some x := List.getElem?_set_self hi

theorem get?_set_ne {a : Arena α} {i j : Nat} (h : i ≠ j) (x : α) :
    (a.set i x).get? j = a.get? j := List.getElem?_set_ne h

theorem lt_next_of_get? {a : Arena α} {i : Nat} {x : α} (h : a.get? i = some x) : i < a.next :=
  (List.getElem?_eq_some_iff.mp h).1

theorem exists_get? {a : Arena α} {i : Nat} (h : i < a.next) : ∃ x, a.get? i = some x :=
  ⟨a.cells[i], List.getElem?_eq_getElem h⟩

end Arena
end Machine
